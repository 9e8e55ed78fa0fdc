import BlockAgreement.Proofs.Governance.Lineage

/-!
# Validity told from the headers

A header that is checked on a ledger is valid or not by the headers of the ledger alone, whatever the
archive remembers. A valid header stays valid when the ledger grows, and so does the check of it.
-/

set_option autoImplicit false

namespace BlockAgreement

variable [Scheme] {σ : Type} [Ledger σ]

def Archive.Consulted (ledger : σ) (a b : Archive) : Prop :=
  b = a ∨ ∃ number hash, b = (a.snapshot ledger number hash).2

namespace Archive

theorem parentSnapshot_consulted (a : Archive) (ledger : σ) (number : Height) (hash : Digest) :
    Consulted ledger a (a.parentSnapshot ledger number hash).2 := by
  unfold parentSnapshot
  split
  · exact .inl rfl
  · exact .inr ⟨_, _, rfl⟩

theorem verify_consulted (a : Archive) (ledger : σ) (h : Header) (final : Bool) :
    Consulted ledger a (HeaderRules.verify ledger a h final).2 := by
  have hp := parentSnapshot_consulted a ledger h.number h.parentHash
  unfold HeaderRules.verify
  split
  · exact .inl rfl
  · split
    · exact .inl rfl
    · split
      · exact .inl rfl
      · split
        · exact .inl rfl
        · split
          · exact .inl rfl
          · split
            · rename_i he
              rw [he] at hp
              exact hp
            · rename_i he
              rw [he] at hp
              exact hp

theorem verifyProposal_consulted (a : Archive) (ledger : σ) (b : Block) :
    Consulted ledger a (HeaderRules.verifyProposal ledger a b).2 := by
  unfold HeaderRules.verifyProposal
  split
  · exact verify_consulted a ledger b.header false
  · exact .inl rfl

end Archive

namespace HeaderRules

structure Holds (epoch : Epoch) (policy : ProposerPolicy) (find : Digest → Option Header) (h : Header)
    (s : Snapshot) : Prop where
  marked : h.isMarked = true
  parent : ∃ g, find h.parentHash = some g ∧ next? g.number = some h.number ∧
    ¬ h.timestamp < g.timestamp
  snapshot : SnapshotOf epoch policy find h.parentHash s
  extra : checkExtra epoch s h = .ok ()
  author : checkAuthor s h = .ok ()

variable {epoch : Epoch} {policy : ProposerPolicy}

theorem Holds.mono {find find' : Digest → Option Header} {h : Header} {s : Snapshot}
    (hf : ∀ d h, find d = some h → find' d = some h) (hh : Holds epoch policy find h s) :
    Holds epoch policy find' h s := by
  obtain ⟨g, hg, hn, ht⟩ := hh.parent
  exact ⟨hh.marked, ⟨g, hf _ _ hg, hn, ht⟩, hh.snapshot.mono hf, hh.extra, hh.author⟩

theorem Holds.withSeals {find : Digest → Option Header} {h : Header} {s : Snapshot}
    (hh : Holds epoch policy find h s) (seals : List Signature) :
    Holds epoch policy find { h with extra := { h.extra with committedSeals := seals } } s :=
  ⟨hh.marked, hh.parent, hh.snapshot, hh.extra, hh.author⟩

variable {ledger : σ} {a : Archive} {h : Header} {s : Snapshot}

theorem parentSnapshot_eq_of_lookup
    (hash_of_lookup : ∀ d h, Ledger.lookup ledger d = some h → h.hash = d)
    (ha : a.Recalls epoch policy ledger)
    (hh : Holds epoch policy (Ledger.lookup ledger) h s) :
    (a.parentSnapshot ledger h.number h.parentHash).1 = .ok s := by
  obtain ⟨g, hg, hn, -⟩ := hh.parent
  obtain ⟨k, hk, hnum, -⟩ := hh.snapshot.frame hash_of_lookup
  obtain rfl := Option.some.inj (hg.symm.trans hk)
  rw [Archive.parentSnapshot, previous?_of_next? hn, ← hnum]
  exact Archive.snapshot_eq_of_lookup hash_of_lookup ha hh.snapshot

theorem parentSnapshot_eq [LawfulLedger σ] (ha : a.Recalls epoch policy ledger)
    (hh : Holds epoch policy (Ledger.lookup ledger) h s) :
    (a.parentSnapshot ledger h.number h.parentHash).1 = .ok s :=
  parentSnapshot_eq_of_lookup (fun _ _ => lookup_hash) ha hh

theorem verify_ok {final : Bool} (hv : (verify ledger a h final).1 = .ok ()) (h0 : h.number ≠ 0) :
    h.isMarked = true ∧
      (∃ g, Ledger.headerOf? ledger h.parentHash = some g ∧ next? g.number = some h.number ∧
        ¬ h.timestamp < g.timestamp) ∧
      ∃ s, (a.parentSnapshot ledger h.number h.parentHash).1 = .ok s ∧
        checkExtra (a.parentSnapshot ledger h.number h.parentHash).2.epoch s h = .ok () ∧
        checkAuthor s h = .ok () := by
  unfold verify at hv
  split at hv
  · cases hv
  · rename_i hm
    split at hv
    · cases hv
    · rename_i g hg
      split at hv
      · cases hv
      · rename_i hn
        split at hv
        · cases hv
        · rename_i ht
          split at hv
          · cases hv
          · rename_i s b hs
            rw [hs]
            refine ⟨by simpa using hm, ⟨g, hg, by simpa using hn, ht⟩, s, rfl, ?_⟩
            cases he : checkExtra b.epoch s h with
            | error e => simp [he, bind, Except.bind] at hv
            | ok u =>
              cases hau : checkAuthor s h with
              | error e => simp [he, hau, bind, Except.bind] at hv
              | ok u => exact ⟨rfl, rfl⟩

theorem verify_holds [LawfulLedger σ] (ha : a.Recalls epoch policy ledger) {final : Bool}
    (hv : (verify ledger a h final).1 = .ok ()) (h0 : h.number ≠ 0) :
    ∃ s, Holds epoch policy (Ledger.lookup ledger) h s := by
  obtain ⟨hm, ⟨g, hg, hn, ht⟩, s, hs, he, hau⟩ := verify_ok hv h0
  rw [Archive.parentSnapshot, previous?_of_next? hn] at hs he
  obtain ⟨hr, hsnap⟩ := ha.snapshot g.number h.parentHash
  refine ⟨s, hm, ⟨_, lookup_of_headerOf? hg, hn, ht⟩, hsnap s hs, ?_, hau⟩
  rw [← hr.epoch_eq]
  exact he

theorem verify_of_holds_of_lookup
    (hash_of_lookup : ∀ d h, Ledger.lookup ledger d = some h → h.hash = d)
    (ha : a.Recalls epoch policy ledger)
    (hh : Holds epoch policy (Ledger.lookup ledger) h s) {final : Bool}
    (hc : final = true → checkCommitters s h = .ok ()) : (verify ledger a h final).1 = .ok () := by
  obtain ⟨g, hg, hn, ht⟩ := hh.parent
  obtain ⟨k, hk, rfl⟩ := Option.map_eq_some_iff.mp hg
  have hn : next? k.number = some h.number := hn
  have ht : ¬ h.timestamp < k.timestamp := ht
  have h0 : h.number ≠ 0 := by
    intro h0
    have := toNat_of_next? hn
    rw [h0] at this
    simp at this
  have hs := parentSnapshot_eq_of_lookup hash_of_lookup ha hh
  have hp : (a.parentSnapshot ledger h.number h.parentHash).2.Recalls epoch policy ledger := by
    rw [Archive.parentSnapshot, previous?_of_next? hn]
    exact (ha.snapshot_of_lookup hash_of_lookup _ _).1
  unfold verify
  rw [if_neg (by simp [hh.marked]), if_neg h0, hk]
  dsimp only
  rw [if_neg (by simpa using hn), if_neg ht]
  split
  · rename_i e b hb
    rw [hb] at hs
    cases hs
  · rename_i t b hb
    rw [hb] at hs hp
    obtain rfl := Except.ok.inj hs
    rw [hp.epoch_eq, hh.extra, hh.author]
    cases final with
    | false => rfl
    | true => exact hc rfl

theorem verify_of_holds [LawfulLedger σ] (ha : a.Recalls epoch policy ledger)
    (hh : Holds epoch policy (Ledger.lookup ledger) h s) {final : Bool}
    (hc : final = true → checkCommitters s h = .ok ()) : (verify ledger a h final).1 = .ok () :=
  verify_of_holds_of_lookup (fun _ _ => lookup_hash) ha hh hc

end HeaderRules

namespace Archive

variable [LawfulLedger σ] {epoch : Epoch} {policy : ProposerPolicy} {ledger : σ} {a b : Archive}

theorem Recalls.consulted (ha : a.Recalls epoch policy ledger) (hb : Consulted ledger a b) :
    b.Recalls epoch policy ledger := by
  rcases hb with rfl | ⟨number, hash, rfl⟩
  · exact ha
  · exact (ha.snapshot number hash).1

end Archive

end BlockAgreement
