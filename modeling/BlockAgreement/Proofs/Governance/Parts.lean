import BlockAgreement.Proofs.Governance.Transparency

/-!
# Headers may be applied in parts

Headers are applied in two passes, one that compares neighbours and one that counts the votes, and the
snapshot moves on when both are done. It comes to the same to apply the headers part by part, wherever
they are divided: the last header of a part is the neighbour of the next one's first.
-/

set_option autoImplicit false

namespace BlockAgreement.Snapshot

variable [Scheme] {s t : Snapshot} {hs ks : List Header} {number : Height} {hash : Digest}

def Succeeds (g h : Header) : Prop := next? g.number = some h.number ∧ h.parentHash = g.hash

theorem isLinked_iff : isLinked number hash hs = true ↔
    hs.IsChain Succeeds ∧ ∀ h ∈ hs.head?, next? number = some h.number ∧ h.parentHash = hash := by
  induction hs generalizing number hash with
  | nil => simp [isLinked]
  | cons h hs ih =>
    rw [isLinked, Bool.and_eq_true, ih, List.isChain_cons]
    simp only [Bool.and_eq_true, beq_iff_eq, List.head?_cons, Option.mem_def, Option.some.injEq,
      forall_eq', Succeeds]
    tauto

theorem isLinked_of_append (hl : isLinked number hash (hs ++ ks) = true) :
    isLinked number hash hs = true := by
  obtain ⟨hchain, hfirst⟩ := isLinked_iff.mp hl
  refine isLinked_iff.mpr ⟨hchain.left_of_append, fun h hh => hfirst h ?_⟩
  rw [List.head?_append, Option.mem_def.mp hh]
  rfl

omit [Scheme] in
def placed (s : Snapshot) (number : Height) (hash : Digest) : Snapshot :=
  { s with number := number, hash := hash }

def count (s : Snapshot) (h : Header) : Except SnapshotFault Snapshot :=
  (s.applyHeader h).map (·.placed s.number s.hash)

def tip (s : Snapshot) (hs : List Header) : Height × Digest :=
  (hs.getLast?.map fun h => (h.number, h.hash)).getD (s.number, s.hash)

theorem tip_cons (s t : Snapshot) (h : Header) (hs : List Header) :
    s.tip (h :: hs) = (t.placed h.number h.hash).tip hs := by
  rw [tip, tip, List.getLast?_cons]
  cases hs.getLast? <;> rfl

theorem applyHeader_placed (s : Snapshot) (number : Height) (hash : Digest) (h : Header) :
    (s.placed number hash).applyHeader h = s.applyHeader h := by
  have henter : { (s.placed number hash).enter h with number := h.number, hash := h.hash } =
      { s.enter h with number := h.number, hash := h.hash } := by
    unfold enter placed
    split <;> rfl
  unfold applyHeader
  rw [henter]

theorem foldlM_applyHeader_placed (s : Snapshot) (number : Height) (hash : Digest) (hs : List Header) :
    hs.foldlM applyHeader (s.placed number hash) =
      (hs.foldlM count s).map fun t =>
        t.placed ((s.placed number hash).tip hs).1 ((s.placed number hash).tip hs).2 := by
  induction hs generalizing s number hash with
  | nil => rfl
  | cons h hs ih =>
    rw [List.foldlM_cons, List.foldlM_cons, applyHeader_placed, count]
    cases ha : s.applyHeader h with
    | error e => rfl
    | ok u =>
      obtain ⟨hnumber, hhash, -⟩ := applyHeader_frame ha
      have hu : (u.placed s.number s.hash).placed h.number h.hash = u := by
        rw [← hnumber, ← hhash]
        rfl
      rw [tip_cons _ (u.placed s.number s.hash)]
      exact (congrArg (hs.foldlM applyHeader) hu.symm).trans (ih _ _ _)

/-- The headers can be applied if neighbours are linked and all votes can be counted. The snapshot moves
on to the last header then. -/
theorem apply_iff_two_passes : s.apply hs = .ok t ↔
    (hs.IsChain Succeeds ∧
      ∀ h ∈ hs.head?, next? s.number = some h.number ∧ h.parentHash = s.hash) ∧
    ∃ u, hs.foldlM count s = .ok u ∧ t = u.placed (s.tip hs).1 (s.tip hs).2 := by
  have hfold : hs.foldlM applyHeader s =
      (hs.foldlM count s).map fun t => t.placed (s.tip hs).1 (s.tip hs).2 :=
    foldlM_applyHeader_placed s s.number s.hash hs
  rw [← isLinked_iff, apply, hfold]
  split
  · rename_i hl
    cases hs.foldlM count s with
    | error e => simp [Except.map]
    | ok u => simp [Except.map, hl, eq_comm]
  · rename_i hl
    simp [hl]

theorem apply_flatten {parts : List (List Header)} :
    s.apply parts.flatten = .ok t ↔ parts.foldlM apply s = .ok t := by
  induction parts generalizing s with
  | nil => exact Iff.rfl
  | cons hs parts ih =>
    rw [List.flatten_cons, apply_append, List.foldlM_cons]
    cases hm : s.apply hs with
    | error e => simp [bind, Except.bind]
    | ok m => simp [bind, Except.bind, ih]

/-- Headers are applied with the same result at once as in two parts. If the first part cannot be applied,
nor can all of them, for the same reason, unless it is found before that they are not linked. -/
theorem replay_composes (s : Snapshot) (hs ks : List Header) :
    (∀ t, s.apply (hs ++ ks) = .ok t ↔ ∃ m, s.apply hs = .ok m ∧ m.apply ks = .ok t) ∧
      ∀ e, s.apply hs = .error e →
        s.apply (hs ++ ks) = .error e ∨ s.apply (hs ++ ks) = .error .invalidVotingChain := by
  refine ⟨fun t => apply_append, fun e he => ?_⟩
  by_cases hl : isLinked s.number s.hash (hs ++ ks) = true
  · left
    rw [apply, if_pos (isLinked_of_append hl)] at he
    rw [apply, if_pos hl, List.foldlM_append, he]
    rfl
  · right
    rw [apply, if_neg hl]

end BlockAgreement.Snapshot
