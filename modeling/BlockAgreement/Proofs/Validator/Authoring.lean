import BlockAgreement.Proofs.Governance.Siblings
import BlockAgreement.Proofs.Governance.Tally
import BlockAgreement.Proofs.Replica.Proposals
import BlockAgreement.Validator

/-!
# What a validator prepares and seals is valid

A validator fills in a header and seals the block by the rules by which every other one checks it. The
vote that it picks is one that would change the committee after the parent, so that it counts as soon as
the header is applied.
-/

set_option autoImplicit false

namespace BlockAgreement

namespace Snapshot

variable {s : Snapshot} {v : Vote}

/-- The vote has become the newest of the pending ones, and the only one of its signer on its target; or
it has been carried out. -/
def Takes (s t : Snapshot) (v : Vote) : Prop :=
  (∃ rest, t.votes = rest ++ [v] ∧ rest.Sublist s.votes ∧
    ∀ w ∈ rest, ¬ (w.signer = v.signer ∧ w.target = v.target)) ∨
  s.committee.contains v.target = !v.authorize ∧ t.committee.contains v.target = v.authorize

theorem countVote_takes (hs : Consistent s) (hm : s.committee.contains v.signer)
    (hv : s.isMeaningful v.target v.authorize = true) : s.Takes (s.countVote v) v := by
  have hdir : v.authorize = !s.committee.contains v.target := isMeaningful_iff.mp hv
  rcases settle_or (withdraw_cast_consistent hs hm) v.target with hstay | hchange
  · refine .inl ⟨_, ?_, withdraw_votes s v.signer v.target, withdraw_fresh hs⟩
    exact (congrArg Snapshot.votes hstay).trans (withdraw_cast_votes hv)
  · rw [withdraw_cast_committee, ← hdir] at hchange
    exact .inr ⟨by rw [hdir, Bool.not_not], hchange⟩

theorem applyHeader_takes [Scheme] (hs : Consistent s) {h : Header} {author : Address}
    (ha : h.author = some author) (hm : s.committee.contains author = true)
    (hv : ∀ m ∈ h.vote, s.isMeaningful m.target m.authorize = true ∧
      s.epoch.isCheckpoint h.number = false) :
    ∃ t, s.applyHeader h = .ok t ∧
      ∀ m ∈ h.vote, s.Takes t ⟨author, h.number, m.target, m.authorize⟩ := by
  cases hvote : h.vote with
  | some m =>
    obtain ⟨hmean, hc⟩ := hv m hvote
    refine ⟨_, applyHeader_ok.mpr ⟨author, ha, hm, .inr (.inr ⟨m, hc, hvote, rfl⟩)⟩, ?_⟩
    rintro n hn
    obtain rfl := Option.some.inj hn
    exact countVote_takes (hs.moveTo h) hm hmean
  | none =>
    cases hc : s.epoch.isCheckpoint h.number with
    | true => exact ⟨_, applyHeader_ok.mpr ⟨author, ha, hm, .inl ⟨hc, rfl⟩⟩, by simp⟩
    | false => exact ⟨_, applyHeader_ok.mpr ⟨author, ha, hm, .inr (.inl ⟨hc, hvote, rfl⟩)⟩, by simp⟩

end Snapshot

theorem SnapshotOf.consistent [Scheme] {epoch : Epoch} {policy : ProposerPolicy}
    {find : Digest → Option Header} {d : Digest} {s : Snapshot}
    (hs : SnapshotOf epoch policy find d s) : s.Consistent := by
  induction hs with
  | checkpoint => exact Snapshot.initial_consistent _ _ _ _
  | later _ _ _ _ ht ih => exact Snapshot.applyHeader_consistent ih ht

theorem Candidates.isMeaningful_of_pick {c : Candidates} {s : Snapshot} {draw : Nat}
    {v : MembershipVote} (h : c.pick s draw = some v) : s.isMeaningful v.target v.authorize = true := by
  obtain ⟨⟨target, authorize⟩, he, rfl⟩ := List.mem_map.mp (List.mem_of_getElem? h)
  exact (List.mem_filter.mp he).2

section Authoring

variable [Scheme]

theorem Block.sealedBy_spec {k : Signer} {b c : Block} (hk : k.Honest) (h : b.sealedBy k = some c) :
    c.isCorrect = b.isCorrect ∧ c.header.author = some k.address ∧
      c.header.withoutSeals = b.header.withoutSeals := by
  obtain ⟨sig, hsig, rfl⟩ := Option.map_eq_some_iff.mp h
  exact ⟨rfl, hk _ sig hsig, rfl⟩

namespace Validator

variable {σ : Type} [Ledger σ] {epoch : Epoch} {policy : ProposerPolicy}

structure Drafted (epoch : Epoch) (s : Snapshot) (parent h : Header) : Prop where
  number : next? parent.number = some h.number
  timely : ¬ h.timestamp < parent.timestamp
  marked : h.isMarked = true
  extra : HeaderRules.checkExtra epoch s h = .ok ()
  vote : ∀ v ∈ h.vote, s.isMeaningful v.target v.authorize = true ∧
    epoch.isCheckpoint h.number = false

theorem create_reached {settings : Settings} {signer : Signer} {ledger : σ} {v : Validator σ}
    (hc : create settings signer ledger = .ok v) : v.replica.signer = signer ∧
      v.replica.ledger = ledger ∧
      v.replica.archive.Reached settings.epoch settings.policy ledger := by
  obtain ⟨r, hr, rfl⟩ := create_ok hc
  obtain ⟨s, hs, hsigner, hledger, -⟩ := Replica.create_spec hr
  refine ⟨hsigner, hledger, ?_⟩
  rw [show r.archive = _ from (congrArg Prod.snd hs).symm]
  exact .ask _ _ (.empty ledger _)

variable {s : Snapshot} {parent g h : Header}

omit [Scheme] in
theorem Drafted.withData (hd : Drafted epoch s parent h) (dataHash : Digest) :
    Drafted epoch s parent { h with dataHash } :=
  ⟨hd.number, hd.timely, hd.marked, hd.extra, hd.vote⟩

omit [Scheme] in
theorem Drafted.of_withoutSeals (hd : Drafted epoch s parent g)
    (he : h.withoutSeals = g.withoutSeals) : Drafted epoch s parent h := by
  obtain ⟨-, hnumber, htime, hmarker, -, hvote, hextra⟩ := Header.mk.inj he
  obtain ⟨hvalidators, -⟩ := Extra.mk.inj hextra
  exact {
    number := hnumber ▸ hd.number
    timely := htime ▸ hd.timely
    marked := by rw [Header.isMarked, hmarker]; exact hd.marked
    extra := by
      rw [HeaderRules.checkExtra, hnumber, hvote, hvalidators]
      exact hd.extra
    vote := by rw [hnumber, hvote]; exact hd.vote }

omit [Scheme] in
theorem not_max_lt (a b : UInt64) : ¬ max a b < b := by
  show ¬ (if a ≤ b then b else a) < b
  split
  · exact UInt64.lt_irrefl b
  · rename_i h
    exact fun hlt => h (UInt64.le_of_lt hlt)

/-- What is prepared is drafted for the snapshot after its parent. The archive has been asked for that,
and nothing else has changed. -/
theorem prepare_ok {v : Validator σ} {now : UInt64} {draw : Nat} {p : Header}
    (hp : (v.prepare now draw h).1 = .ok p) :
    ∃ parent s archive, Ledger.headerOf? v.replica.ledger p.parentHash = some parent ∧
      v.replica.archive.parentSnapshot v.replica.ledger p.number p.parentHash = (.ok s, archive) ∧
      (v.prepare now draw h).2 = { v with replica := { v.replica with archive } } ∧
      Drafted archive.epoch s parent p := by
  unfold prepare at hp ⊢
  split at hp
  · cases hp
  · rename_i parent hparent
    split at hp
    · cases hp
    · rename_i hn
      split at hp
      · cases hp
      · rename_i s archive hs
        obtain rfl := Except.ok.inj hp
        refine ⟨parent, s, archive, hparent, hs, ?_, ?_⟩
        · simp only [if_neg hn]
        · refine ⟨not_not.mp hn, not_max_lt now parent.timestamp, beq_self_eq_true _, ?_, fun m hm => ?_⟩
          · cases hc : archive.epoch.isCheckpoint h.number <;>
              simp [HeaderRules.checkExtra, hc]
          · cases hc : archive.epoch.isCheckpoint h.number with
            | true => simp [hc] at hm
            | false =>
              simp only [hc, Bool.false_eq_true, if_false, Option.mem_def] at hm
              exact ⟨Candidates.isMeaningful_of_pick hm, rfl⟩

theorem sealBlock_ok {w : Validator σ} {b : Block} (hs : (w.sealBlock b).1 = .ok ()) :
    ∃ s c, (w.replica.archive.parentSnapshot w.replica.ledger b.number b.header.parentHash).1 = .ok s ∧
      s.committee.contains w.address = true ∧ b.sealedBy w.replica.signer = some c ∧
      (w.sealBlock b).2.inbox = (w.inbox.deliver (.request c)).2 := by
  unfold sealBlock at hs ⊢
  split at hs
  · cases hs
  · rename_i hstarted
    split at hs
    · cases hs
    · rename_i s archive hsnap
      dsimp only at hs
      split at hs
      · cases hs
      · rename_i hm
        split at hs
        · cases hs
        · rename_i c hc
          have hmember : s.committee.contains w.address = true := by
            rw [Bool.not_eq_true, Bool.not_eq_false'] at hm
            exact hm
          refine ⟨s, c, congrArg Prod.fst hsnap, hmember, hc, ?_⟩
          simp only [if_neg hstarted, if_neg hm, hc, handIn_inbox]

theorem Drafted.holds {find : Digest → Option Header} (hd : Drafted epoch s parent h)
    (hf : find h.parentHash = some parent.withoutCommittedSeals)
    (hs : SnapshotOf epoch policy find h.parentHash s) {a : Address} (ha : h.author = some a)
    (hm : s.committee.contains a = true) : HeaderRules.Holds epoch policy find h s where
  marked := hd.marked
  parent := ⟨_, hf, hd.number, hd.timely⟩
  snapshot := hs
  extra := hd.extra
  author := by
    rw [HeaderRules.checkAuthor, HeaderRules.author, ha]
    exact if_pos hm

/-- What one validator has prepared and one seals, at any time and with any vote that can be picked,
every other one accepts. The snapshot after the parent takes the header, and the vote of it. It is
enough that the ledgers find headers under their own hashes and keep what they have, and that all of
them go by the same epochs and policy. -/
theorem sealed_accepted {v w : Validator σ} {ledger : σ} {archive : Archive} {now : UInt64} {draw : Nat}
    {p : Header} {data : Bytes}
    (hwfound : ∀ d h, Ledger.headerOf? w.replica.ledger d = some h → h.hash = d)
    (hfound : ∀ d h, Ledger.headerOf? ledger d = some h → h.hash = d)
    (hvw : Grows v.replica.ledger w.replica.ledger) (hvl : Grows v.replica.ledger ledger)
    (hva : v.replica.archive.Reached epoch policy v.replica.ledger)
    (hwa : w.replica.archive.Reached epoch policy w.replica.ledger)
    (ha : archive.Reached epoch policy ledger) (hk : w.replica.signer.Honest)
    (hp : (v.prepare now draw h).1 = .ok p)
    (hs : (w.sealBlock (.create p data)).1 = .ok ()) :
    ∃ b, (Block.create p data).sealedBy w.replica.signer = some b ∧
      (w.sealBlock (.create p data)).2.inbox = (w.inbox.deliver (.request b)).2 ∧
      (HeaderRules.verifyProposal ledger archive b).1 = .ok () ∧
      ∃ s t, (archive.parentSnapshot ledger b.number b.header.parentHash).1 = .ok s ∧
        s.apply [b.header] = .ok t ∧
        ∀ m ∈ b.header.vote, s.Takes t ⟨w.address, b.number, m.target, m.authorize⟩ := by
  have hwlookup := hash_of_lookup hwfound
  have hlookup := hash_of_lookup hfound
  have hvlookup : ∀ d h, Ledger.lookup v.replica.ledger d = some h → h.hash = d :=
    fun d h hd => hlookup d h (hvl d h hd)
  -- the header is drafted, for the snapshot that whoever seals it finds too
  obtain ⟨parent, s, asked, hparent, hsnap, -, hdraft⟩ := prepare_ok hp
  have hasked := hva.consulted (Archive.parentSnapshot_consulted _ _ p.number p.parentHash)
  rw [hsnap] at hasked
  rw [(hasked.recalls hvlookup).epoch_eq] at hdraft
  have hsv := hva.snapshotOf_parent hvlookup (congrArg Prod.fst hsnap)
  obtain ⟨s', b, hsnap', hmember, hb, hinbox⟩ := sealBlock_ok hs
  obtain rfl : s = s' := (hsv.mono hvw).unique (hwa.snapshotOf_parent hwlookup hsnap')
  -- neither its data nor the seal takes this away, and the ledger still finds the parent
  obtain ⟨hcorrect, hauthor, hseals⟩ := Block.sealedBy_spec hk hb
  have hdrafted := (hdraft.withData _).of_withoutSeals hseals
  have hparentHash : b.header.parentHash = p.parentHash := (Header.mk.inj hseals).1
  have hslater : SnapshotOf epoch policy (Ledger.lookup ledger) b.header.parentHash s :=
    hparentHash ▸ hsv.mono hvl
  have hholds := hdrafted.holds (hparentHash ▸ hvl _ _ (lookup_of_headerOf? hparent)) hslater hauthor
    hmember
  refine ⟨b, hb, hinbox, ?_, s, ?_⟩
  · have hdata : (Block.create p data).isCorrect = true := beq_self_eq_true _
    rw [HeaderRules.verifyProposal, if_pos (hcorrect.trans hdata)]
    exact HeaderRules.verify_of_holds_of_lookup hlookup (ha.recalls hlookup) hholds (by simp)
  · obtain ⟨k, hk', hnumber, hhash⟩ := hslater.frame hlookup
    obtain ⟨t, happly, htakes⟩ := Snapshot.applyHeader_takes hslater.consistent hauthor hmember
      (hslater.epoch_eq.symm ▸ hdrafted.vote)
    refine ⟨t, HeaderRules.parentSnapshot_eq_of_lookup hlookup (ha.recalls hlookup) hholds, ?_, htakes⟩
    obtain ⟨g, hg, hn, -⟩ := hholds.parent
    obtain rfl := Option.some.inj (hk'.symm.trans hg)
    exact Snapshot.apply_singleton.mpr ⟨hnumber ▸ hn, hhash.symm, happly⟩

end Validator

end Authoring

namespace Pair

attribute [local instance] Scheme.plain

def author : Except HeaderFault (Validator MemoryLedger) :=
  (Validator.create { epoch := 100 } first (.ofHeaders [genesis])).map fun v =>
    { v with
      replica := { v.replica with started := true }
      candidates := Candidates.propose [] 9 true }

def outline : Header :=
  { parentHash := genesis.hash, number := 1, timestamp := 0, marker := 0, dataHash := 0, vote := none
    extra := .empty }

theorem author_reached {v : Validator MemoryLedger} (hv : author = .ok v) :
    v.replica.signer = first ∧ v.replica.archive.Reached 100 .roundRobin v.replica.ledger := by
  unfold author at hv
  cases hc : Validator.create { epoch := 100 } first (MemoryLedger.ofHeaders [genesis]) with
  | error e =>
    rw [hc] at hv
    cases hv
  | ok u =>
    rw [hc] at hv
    obtain rfl := Except.ok.inj hv
    obtain ⟨hsigner, hledger, hreached⟩ := Validator.create_reached hc
    exact ⟨hsigner, hledger ▸ hreached⟩

/-- It prepares a header with this vote and seals a block with it, which an archive accepts that has been
asked nothing before. -/
theorem sealed_accepted_candidate : ∃ (v : Validator MemoryLedger) (p : Header) (b : Block)
    (s t : Snapshot), author = .ok v ∧ (v.prepare 5 0 outline).1 = .ok p ∧ p.vote = some ⟨9, true⟩ ∧
    (Block.create p [7]).sealedBy first = some b ∧
    (HeaderRules.verifyProposal v.replica.ledger (.empty 100 .roundRobin 0) b).1 = .ok () ∧
    s.apply [b.header] = .ok t ∧ s.Takes t ⟨1, 1, 9, true⟩ := by
  obtain ⟨v, hv, hprepared⟩ := exists_ok (x := author) (P := fun v =>
    (v.prepare 5 0 outline).1.toOption.any fun p => p.vote = some ⟨9, true⟩ ∧ p.number = 1 ∧
      ((v.prepare 5 0 outline).2.sealBlock (.create p [7])).1 = .ok ()) (by decide +kernel)
  obtain ⟨p, hp, hvote, hnumber, hseal⟩ := exists_ok hprepared
  obtain ⟨hsigner, hreached⟩ := author_reached hv
  obtain ⟨_, _, archive, -, hsnap, hw, -⟩ := Validator.prepare_ok hp
  have hasked := hreached.consulted
    (Archive.parentSnapshot_consulted _ _ p.number p.parentHash)
  rw [hsnap] at hasked
  rw [hw] at hseal
  have hfound : ∀ d h, Ledger.headerOf? v.replica.ledger d = some h → h.hash = d :=
    fun d h hd => (LawfulLedger.found hd).2
  obtain ⟨b, hb, -, hverify, s, t, -, happly, htakes⟩ := Validator.sealed_accepted (v := v)
    (w := { v with replica := { v.replica with archive } }) hfound hfound (fun _ _ h => h)
    (fun _ _ h => h) hreached hasked (.empty v.replica.ledger 0)
    (hsigner ▸ Signer.plain_honest 1) hp hseal
  rw [show ({ v with replica := { v.replica with archive } } : Validator MemoryLedger).replica.signer =
    first from hsigner] at hb
  obtain ⟨-, -, hseals⟩ := Block.sealedBy_spec (Signer.plain_honest 1) hb
  obtain ⟨-, hn, -, -, -, hm, -⟩ := Header.mk.inj hseals
  have htaken := htakes ⟨9, true⟩ (hm.trans hvote)
  refine ⟨v, p, b, s, t, hv, hp, hvote, hb, hverify, happly, ?_⟩
  rw [show b.number = 1 from hn.trans hnumber, Validator.address, hsigner] at htaken
  exact htaken

end Pair

end BlockAgreement
