import BlockAgreement.Proofs.Governance.Replay

/-!
# The archive is transparent

An archive answers any series of questions as one that remembers nothing answers each of them, faults
included, however few snapshots it has room for. Headers may be anything otherwise: it is enough that
each is found under its own hash, and that a parent that is found has the number before.
-/

set_option autoImplicit false

namespace BlockAgreement

section Transparency

variable [Scheme]

namespace Snapshot

variable {s t : Snapshot} {hs ks : List Header}

theorem apply_append_of_ok (ha : s.apply hs = .ok t) : s.apply (hs ++ ks) = t.apply ks := by
  induction hs generalizing s with
  | nil =>
    obtain rfl := Except.ok.inj ha
    rfl
  | cons h hs ih =>
    obtain ⟨hn, hp, u, hu, ht⟩ := apply_cons.mp ha
    obtain ⟨hnum, hhash, -⟩ := applyHeader_frame hu
    rw [← ih ht, List.cons_append, apply, apply, isLinked, List.foldlM_cons, hu, hnum, hhash]
    simp [hn, hp, bind, Except.bind]

end Snapshot

section Ledgers

variable {σ : Type} [Ledger σ]

/-- Headers are found under their own hashes, and the parent of a header, if it is found, has the
number before. -/
structure Traceable (ledger : σ) : Prop where
  found {d : Digest} {h : Header} (hf : Ledger.headerOf? ledger d = some h) : h.hash = d
  parent {d : Digest} {h g : Header} (hf : Ledger.headerOf? ledger d = some h)
    (hg : Ledger.headerOf? ledger h.parentHash = some g) : next? g.number = some h.number

/-- What one ledger finds the other one finds too. Committed seals may differ. -/
def Grows (l l' : σ) : Prop :=
  ∀ d h, Ledger.lookup l d = some h → Ledger.lookup l' d = some h

instance : IsTrans σ Grows := ⟨fun _ _ _ h1 h2 d h hl => h2 d h (h1 d h hl)⟩

theorem Traceable.hash_of_lookup {ledger : σ} (ht : Traceable ledger) :
    ∀ d h, Ledger.lookup ledger d = some h → h.hash = d :=
  BlockAgreement.hash_of_lookup fun _ _ hf => ht.found hf

theorem traceable_of_headers [LawfulLedger σ] {ledger : σ}
    (hp : ∀ h ∈ headers ledger, ∀ g ∈ headers ledger, g.hash = h.parentHash →
      next? g.number = some h.number) : Traceable ledger where
  found hf := (LawfulLedger.found hf).2
  parent hf hg := hp _ (LawfulLedger.found hf).1 _ (LawfulLedger.found hg).1 (LawfulLedger.found hg).2

end Ledgers

namespace Archive

variable {σ : Type} [Ledger σ] {epoch : Epoch} {policy : ProposerPolicy} {ledger : σ} {a : Archive}

def resume (found : Except SnapshotFault (Snapshot × List Header)) : Except SnapshotFault Snapshot :=
  found.bind fun (s, later) => s.apply later

theorem snapshot_eq_resume (a : Archive) (ledger : σ) (number : Height) (d : Digest) :
    (a.snapshot ledger number d).1 = resume (a.base ledger number.toNat d []).1 := by
  unfold snapshot
  split
  · rename_i e b he
    rw [he]
    rfl
  · rename_i s later b he
    rw [he]
    show _ = s.apply later
    split <;> simp_all

/-- An archive and an empty one may find different bases for a block, but these lead to the same
snapshot, or to the same fault. -/
theorem Recalls.resume_base (ha : a.Recalls epoch policy ledger) (ht : Traceable ledger)
    (capacity n : Nat) (d : Digest) (later : List Header)
    (hm : ∀ h, Ledger.headerOf? ledger d = some h → h.number.toNat = n) :
    resume (a.base ledger n d later).1 =
      resume ((empty epoch policy capacity).base ledger n d later).1 := by
  have hempty := empty_recalls epoch policy capacity ledger
  have hmiss (d : Digest) : (empty epoch policy capacity).recent.get? d = (none, .empty capacity) := rfl
  generalize empty epoch policy capacity = e at hempty hmiss
  have hepoch : e.epoch = a.epoch := hempty.epoch_eq.trans ha.epoch_eq.symm
  have hpolicy : e.policy = a.policy := hempty.policy_eq.trans ha.policy_eq.symm
  fun_induction a.base ledger n d later with
  | case1 n d later s recent hg =>
    obtain ⟨hs, -⟩ := ha.get? hg
    obtain ⟨h, hf, hn, -⟩ := hs.frame ht.hash_of_lookup
    obtain ⟨k, hk, rfl⟩ := Option.map_eq_some_iff.mp hf
    have hn : s.number.toNat = n := hn ▸ hm k hk
    -- what is remembered is a snapshot among the headers, so the empty archive comes to it from its base
    obtain ⟨u, between, hb, happ⟩ := base_of_snapshot ht.hash_of_lookup hempty hs later
    rw [← hn, hb]
    exact (Snapshot.apply_append_of_ok happ).symm
  | case2 n d later _ _ hh =>
    rw [base.eq_def e]
    simp only [hmiss, hh]
  | case3 n d later _ _ h hh hn => exact absurd (hm h hh) hn
  | case4 n d later _ _ h hh hn hc hv =>
    rw [base.eq_def e]
    simp only [hmiss, hh, hepoch, hpolicy]
    rw [if_neg hn, if_pos hc, if_pos hv]
  | case5 n d later _ _ h hh hn hc hv =>
    rw [base.eq_def e]
    simp only [hmiss, hh, hepoch, hpolicy]
    rw [if_neg hn, if_pos hc, if_neg hv]
  | case6 d later _ _ h hh hc hn =>
    rw [base.eq_def e]
    simp only [hmiss, hh, hepoch, hpolicy]
    rw [if_neg hn, if_neg hc]
  | case7 d later _ _ h hh hc n hn ih =>
    rw [ih fun g hg => ?_, base.eq_def e _ n.succ]
    · simp only [hmiss, hh, hepoch]
      rw [if_neg hn, if_neg hc]
    · have := toNat_of_next? (ht.parent hh hg)
      have := hm h hh
      omega

theorem Recalls.snapshot_transparent (ha : a.Recalls epoch policy ledger) (ht : Traceable ledger)
    (capacity : Nat) (number : Height) (d : Digest)
    (hm : ∀ h, Ledger.headerOf? ledger d = some h → h.number = number) :
    (a.snapshot ledger number d).1 = ((empty epoch policy capacity).snapshot ledger number d).1 := by
  rw [snapshot_eq_resume, snapshot_eq_resume]
  exact ha.resume_base ht capacity number.toNat d [] fun h hh => congrArg UInt64.toNat (hm h hh)

/-- What an archive is asked: the snapshot after a block, at a time when the ledger is this one. -/
structure Query (σ : Type) where
  ledger : σ
  number : Height
  hash : Digest

/-- The number of the query is that of the block, if there is one with this hash. -/
def Query.Matches (q : Query σ) : Prop :=
  ∀ h, Ledger.headerOf? q.ledger q.hash = some h → h.number = q.number

def answers : Archive → List (Query σ) → List (Except SnapshotFault Snapshot)
  | _, [] => []
  | a, q :: qs =>
    (a.snapshot q.ledger q.number q.hash).1 :: (a.snapshot q.ledger q.number q.hash).2.answers qs

theorem Recalls.answers {qs : List (Query σ)} (ha : ∀ q ∈ qs, a.Recalls epoch policy q.ledger)
    (hg : qs.Pairwise fun p q => Grows p.ledger q.ledger) (ht : ∀ q ∈ qs, Traceable q.ledger)
    (hm : ∀ q ∈ qs, q.Matches) (capacity : Nat) :
    a.answers qs = qs.map fun q =>
      ((empty epoch policy capacity).snapshot q.ledger q.number q.hash).1 := by
  induction qs generalizing a with
  | nil => rfl
  | cons q qs ih =>
    rw [List.pairwise_cons] at hg
    rw [List.forall_mem_cons] at ha ht hm
    obtain ⟨hnext, -⟩ := ha.1.snapshot_of_lookup ht.1.hash_of_lookup q.number q.hash
    rw [List.map_cons, Archive.answers, ha.1.snapshot_transparent ht.1 capacity _ _ hm.1,
      ih (fun p hp => hnext.mono (hg.1 p hp)) hg.2 ht.2 hm.2]

/-- While the ledger only grows, an archive that has been made empty answers every series of queries as
if it were empty each time. -/
theorem answers_transparent (epoch : Epoch) (policy : ProposerPolicy) (capacity other : Nat)
    (qs : List (Query σ)) (ht : ∀ q ∈ qs, Traceable q.ledger) (hm : ∀ q ∈ qs, q.Matches)
    (hg : qs.IsChain fun p q => Grows p.ledger q.ledger) :
    (empty epoch policy capacity).answers qs = qs.map fun q =>
      ((empty epoch policy other).snapshot q.ledger q.number q.hash).1 :=
  Recalls.answers (fun q _ => empty_recalls epoch policy capacity q.ledger)
    (List.isChain_iff_pairwise.mp hg) ht hm other

end Archive

end Transparency

namespace Archive

section Example

attribute [local instance] Scheme.plain

def exampleQueries : List (Query MemoryLedger) :=
  let two : MemoryLedger := .ofHeaders [exampleGenesis, exampleFirst]
  let three : MemoryLedger := .ofHeaders [exampleGenesis, exampleFirst, exampleSecond]
  [⟨two, exampleFirst.number, exampleFirst.hash⟩, ⟨three, exampleSecond.number, exampleSecond.hash⟩,
    ⟨exampleChain, exampleSecond.number, exampleSecond.hash⟩, ⟨exampleChain, 7, 0⟩,
    ⟨exampleChain, exampleFirst.number, exampleFirst.hash⟩]

theorem answers_transparent_voters :
    (empty 3 .roundRobin 1).answers exampleQueries = exampleQueries.map fun q =>
      ((empty 3 .roundRobin 0).snapshot q.ledger q.number q.hash).1 := by
  have hnumbers : ∀ q ∈ exampleQueries, ∀ h ∈ headers q.ledger, ∀ g ∈ headers q.ledger,
      g.hash = h.parentHash → next? g.number = some h.number := by decide +kernel
  have hfound : ∀ q ∈ exampleQueries,
      (Ledger.headerOf? q.ledger q.hash).all (·.number = q.number) := by decide +kernel
  have hsub : exampleQueries.IsChain fun p q =>
      headers p.ledger ⊆ headers q.ledger ∧ Collisionless (headers q.ledger) := by decide +kernel
  refine answers_transparent 3 .roundRobin 1 0 exampleQueries ?_ ?_ ?_
  · exact fun q hq => traceable_of_headers (hnumbers q hq)
  · intro q hq h hf
    simpa [hf] using hfound q hq
  · exact hsub.imp fun p q h _ _ => lookup_mono h.1 h.2

end Example

end Archive

end BlockAgreement
