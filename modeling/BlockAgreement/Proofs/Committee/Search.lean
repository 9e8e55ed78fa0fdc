import BlockAgreement.Committee
import Mathlib.Data.List.Nodup

/-!
# Looking up by halving

In an ascending list, an address is found by halving the part of the list in which it can still be. If
it is not there, the place is found at which it belongs. What a committee answers, and its members after
one has been added or removed, are told by such a search.
-/

set_option autoImplicit false

namespace BlockAgreement

inductive Spot where
  | taken (index : Nat)
  | free (index : Nat)
  deriving DecidableEq, Repr

def Spot.taken? : Spot → Option Nat
  | taken i => some i
  | free _ => none

def seek (xs : List Address) (a : Address) (low high : Nat) : Spot :=
  if low < high then
    let mid := (low + high) / 2
    match xs[mid]? with
    | none => .free low
    | some b =>
      if b < a then seek xs a (mid + 1) high
      else if b = a then .taken mid
      else seek xs a low mid
  else .free low
termination_by high - low

def rank (a : Address) (xs : List Address) : Nat := xs.countP (· < a)

variable {a : Address} {xs : List Address} {i low high : Nat}

theorem rank_cons_of_lt {b : Address} (h : b < a) : rank a (b :: xs) = rank a xs + 1 :=
  List.countP_cons_of_pos (decide_eq_true h)

theorem rank_cons_of_not_lt {b : Address} (hasc : (b :: xs).Pairwise (· < ·)) (h : ¬ b < a) :
    rank a (b :: xs) = 0 := by
  rw [rank, List.countP_eq_zero]
  intro x hx
  rw [decide_eq_true_eq]
  rcases List.mem_cons.mp hx with rfl | hx
  · exact h
  · exact fun hxa => h (BitVec.lt_trans ((List.pairwise_cons.mp hasc).1 x hx) hxa)

theorem lt_rank_iff (hasc : xs.Pairwise (· < ·)) (hi : i < xs.length) : i < rank a xs ↔ xs[i] < a := by
  induction xs generalizing i with
  | nil => simp at hi
  | cons b xs ih =>
    by_cases hb : b < a
    · rw [rank_cons_of_lt hb]
      cases i with
      | zero => simpa using hb
      | succ i =>
        have hi : i < xs.length := by simpa using hi
        simpa using ih (List.pairwise_cons.mp hasc).2 hi
    · rw [rank_cons_of_not_lt hasc hb]
      cases i with
      | zero => simpa using hb
      | succ i =>
        have hi : i < xs.length := by simpa using hi
        have hbi : b < xs[i] := (List.pairwise_cons.mp hasc).1 _ (List.getElem_mem hi)
        have hnot : ¬ xs[i] < a := fun h => hb (BitVec.lt_trans hbi h)
        simpa using hnot

theorem rank_of_getElem (hasc : xs.Pairwise (· < ·)) (hi : i < xs.length) (ha : xs[i] = a) :
    rank a xs = i := by
  have hle : rank a xs ≤ i := by
    have hnot : ¬ xs[i] < a := by
      rw [ha]
      exact BitVec.lt_irrefl a
    exact Nat.not_lt.mp fun h => hnot ((lt_rank_iff hasc hi).mp h)
  by_contra hne
  have hlt : rank a xs < i := by omega
  have hbelow : xs[rank a xs] < xs[i] := List.pairwise_iff_getElem.mp hasc _ _ (by omega) hi hlt
  rw [ha] at hbelow
  exact Nat.lt_irrefl _ ((lt_rank_iff hasc (by omega)).mpr hbelow)

theorem getElem?_rank (hasc : xs.Pairwise (· < ·)) (ha : a ∈ xs) : xs[rank a xs]? = some a := by
  obtain ⟨i, hi, hget⟩ := List.mem_iff_getElem.mp ha
  rw [rank_of_getElem hasc hi hget, List.getElem?_eq_getElem hi, hget]

/-- The search keeps what is below the address before its first index, and what is above it from its
second index on. -/
theorem seek_eq (hasc : xs.Pairwise (· < ·)) (hlow : low ≤ rank a xs) (hhigh : rank a xs ≤ high)
    (hlen : high ≤ xs.length) (hin : a ∈ xs → rank a xs < high) :
    seek xs a low high = if a ∈ xs then .taken (rank a xs) else .free (rank a xs) := by
  fun_induction seek xs a low high with
  | case1 low high hlt mid hget =>
    rw [List.getElem?_eq_none_iff] at hget
    omega
  | case2 low high hlt mid b hget hb ih =>
    obtain ⟨hm, rfl⟩ := List.getElem?_eq_some_iff.mp hget
    exact ih ((lt_rank_iff hasc hm).mpr hb) hhigh hlen hin
  | case3 low high hlt mid hget hb =>
    obtain ⟨hm, hb⟩ := List.getElem?_eq_some_iff.mp hget
    rw [if_pos (List.mem_of_getElem hb), rank_of_getElem hasc hm hb]
  | case4 low high hlt mid b hget hb hne ih =>
    obtain ⟨hm, rfl⟩ := List.getElem?_eq_some_iff.mp hget
    have hle : rank a xs ≤ mid := Nat.not_lt.mp fun h => hb ((lt_rank_iff hasc hm).mp h)
    refine ih hlow hle (by omega) fun ha => Nat.lt_of_le_of_ne hle fun he => hne ?_
    have hr := getElem?_rank hasc ha
    rw [he, hget] at hr
    exact Option.some.inj hr
  | case5 low high hle =>
    have hrank : rank a xs = low := by omega
    rw [if_neg fun ha => hle (hrank ▸ hin ha), hrank]

theorem insertAscending_eq_insertIdx (hasc : xs.Pairwise (· < ·)) (ha : a ∉ xs) :
    insertAscending a xs = xs.insertIdx (rank a xs) a := by
  induction xs with
  | nil => rfl
  | cons b xs ih =>
    obtain ⟨hne, hxs⟩ := List.ne_and_not_mem_of_not_mem_cons ha
    by_cases hb : b < a
    · rw [rank_cons_of_lt hb, List.insertIdx_succ_cons, ← ih (List.pairwise_cons.mp hasc).2 hxs]
      rw [insertAscending, if_neg (BitVec.lt_asymm hb), if_neg hne]
    · have hab : a < b := by
        have hne := mt BitVec.eq_of_toNat_eq hne
        rw [BitVec.lt_def] at *
        omega
      rw [rank_cons_of_not_lt hasc hb, List.insertIdx_zero, insertAscending, if_pos hab]

theorem filter_ne_eq_eraseIdx (hasc : xs.Pairwise (· < ·)) (ha : a ∈ xs) :
    xs.filter (· ≠ a) = xs.eraseIdx (rank a xs) := by
  induction xs with
  | nil => simp at ha
  | cons b xs ih =>
    obtain ⟨hb, hxs⟩ := List.pairwise_cons.mp hasc
    rcases List.mem_cons.mp ha with rfl | ha
    · have hkept : xs.filter (· ≠ a) = xs := by
        rw [List.filter_eq_self]
        intro x hx
        exact decide_eq_true (BitVec.ne_of_lt (hb x hx)).symm
      rw [rank_cons_of_not_lt hasc (BitVec.lt_irrefl a), List.eraseIdx_cons_zero]
      simpa using hkept
    · have hba : b < a := hb a ha
      rw [rank_cons_of_lt hba, List.eraseIdx_cons_succ, ← ih hxs ha]
      exact List.filter_cons_of_pos (decide_eq_true (BitVec.ne_of_lt hba))

namespace Committee

variable {c : Committee}

def search (c : Committee) (a : Address) : Spot := seek c.members a 0 c.size

theorem search_eq (c : Committee) (a : Address) :
    c.search a = if a ∈ c.members then .taken (rank a c.members) else .free (rank a c.members) := by
  refine seek_eq c.ascending (Nat.zero_le _) List.countP_le_length (Nat.le_refl _) fun ha => ?_
  exact (List.getElem?_eq_some_iff.mp (getElem?_rank c.ascending ha)).1

theorem position?_eq (c : Committee) (a : Address) :
    c.position? a = if a ∈ c.members then some (rank a c.members) else none := by
  rw [position?]
  split
  · rename_i ha
    obtain ⟨hi, hget⟩ := List.getElem?_eq_some_iff.mp (getElem?_rank c.ascending ha)
    refine List.idxOf?_eq_some_iff.mpr ⟨hi, hget, fun j hj => ?_⟩
    exact BitVec.ne_of_lt ((lt_rank_iff c.ascending (by omega)).mp hj)
  · rename_i ha
    exact List.idxOf?_eq_none_iff.mpr ha

theorem get?_eq_some_iff {i : Nat} : c.get? i = some a ↔ c.position? a = some i := by
  rw [position?_eq, get?, List.getElem?_eq_some_iff]
  constructor
  · rintro ⟨hi, hget⟩
    rw [if_pos (List.mem_of_getElem hget), rank_of_getElem c.ascending hi hget]
  · intro h
    split at h
    · rename_i ha
      rw [← Option.some.inj h]
      exact List.getElem?_eq_some_iff.mp (getElem?_rank c.ascending ha)
    · cases h

/-- The answers of a committee, and what it does with an address, are those of the search. -/
structure Searched (c : Committee) (a : Address) : Prop where
  contains : c.contains a = (c.search a).taken?.isSome
  position : c.position? a = (c.search a).taken?
  add : (c.add? a).map members =
    match c.search a with
    | .taken _ => none
    | .free i => some (c.members.insertIdx i a)
  remove : (c.remove? a).map members =
    match c.search a with
    | .taken i => some (c.members.eraseIdx i)
    | .free _ => none

theorem searched (c : Committee) (a : Address) : c.Searched a := by
  by_cases ha : a ∈ c.members
  · have hs : c.search a = .taken (rank a c.members) := by rw [search_eq, if_pos ha]
    refine ⟨?_, ?_, ?_, ?_⟩
    · rw [hs, contains_iff.mpr ha]
      rfl
    · rw [hs, position?_eq, if_pos ha]
      rfl
    · rw [hs, add?, if_pos ha]
      rfl
    · rw [hs, remove?, if_pos ha]
      exact congrArg some (filter_ne_eq_eraseIdx c.ascending ha)
  · have hs : c.search a = .free (rank a c.members) := by rw [search_eq, if_neg ha]
    refine ⟨?_, ?_, ?_, ?_⟩
    · rw [hs, Bool.eq_false_iff.mpr (mt contains_iff.mp ha)]
      rfl
    · rw [hs, position?_eq, if_neg ha]
      rfl
    · rw [hs, add?, if_neg ha]
      exact congrArg some (insertAscending_eq_insertIdx c.ascending ha)
    · rw [hs, remove?, if_neg ha]
      rfl

end Committee

end BlockAgreement
