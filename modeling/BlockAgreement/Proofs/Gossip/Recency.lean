import BlockAgreement.Lru
import Mathlib.Data.Finset.Card
import Mathlib.Data.Finset.Dedup

/-!
# What a least-recently-used cache holds

The keys that have been put into a cache are told apart by when each was put last. The cache holds those
that were put last of all, as many as fit in. So a key is there if and only if fewer others than fit in
have been put since. Keys are listed with the last one first.
-/

set_option autoImplicit false

namespace BlockAgreement.Lru

deriving instance DecidableEq for Lru

variable {κ α : Type} [DecidableEq κ] {k j : κ} {ks newer older : List κ} {n : Nat}

/-- The key is among these, and fewer than `n` others come before its first place. -/
def Fresh (n : Nat) (ks : List κ) (k : κ) : Prop :=
  ∃ newer older, ks = newer ++ k :: older ∧ k ∉ newer ∧ newer.toFinset.card < n

def Forgotten (n : Nat) (ks : List κ) (k : κ) : Prop :=
  ∃ newer older, ks = newer ++ k :: older ∧ k ∉ newer ∧ n ≤ newer.toFinset.card

def recency : List κ → List κ
  | [] => []
  | k :: ks => k :: (recency ks).filter (· ≠ k)

theorem mem_recency : k ∈ recency ks ↔ k ∈ ks := by
  induction ks with
  | nil => simp [recency]
  | cons j ks ih => by_cases h : k = j <;> simp [recency, h, ih]

theorem nodup_recency (ks : List κ) : (recency ks).Nodup := by
  induction ks with
  | nil => exact List.nodup_nil
  | cons k ks ih => exact List.nodup_cons.mpr ⟨by simp, ih.filter _⟩

theorem length_recency (ks : List κ) : (recency ks).length = ks.toFinset.card := by
  rw [← List.toFinset_card_of_nodup (nodup_recency ks)]
  congr 1
  ext k
  simp [mem_recency]

theorem recency_append (ks js : List κ) :
    recency (ks ++ js) = recency ks ++ (recency js).filter (· ∉ ks) := by
  induction ks with
  | nil => simp [recency]
  | cons k ks ih =>
    rw [List.cons_append, recency, ih, recency, List.filter_append, List.filter_filter]
    simp

theorem mem_take_recency (hk : k ∉ newer) :
    k ∈ (recency (newer ++ k :: older)).take n ↔ newer.toFinset.card < n := by
  have hsplit : recency (newer ++ k :: older) =
      recency newer ++ k :: ((recency older).filter (· ≠ k)).filter (· ∉ newer) := by
    rw [recency_append, recency, List.filter_cons_of_pos (by simpa using hk)]
  have hfront : k ∉ (recency newer).take n := fun h => hk (mem_recency.mp (List.mem_of_mem_take h))
  rw [hsplit, List.take_append, List.mem_append, length_recency]
  cases hn : n - newer.toFinset.card with
  | zero => simp [hfront]; omega
  | succ m => simp; omega

theorem fresh_iff_mem_take : Fresh n ks k ↔ k ∈ (recency ks).take n := by
  constructor
  · rintro ⟨newer, older, rfl, hk, hn⟩
    exact (mem_take_recency hk).mpr hn
  · intro h
    obtain ⟨newer, older, rfl, hk⟩ :=
      List.eq_append_cons_of_mem (mem_recency.mp (List.mem_of_mem_take h))
    exact ⟨newer, older, rfl, hk, (mem_take_recency hk).mp h⟩

theorem fresh_append (hk : k ∉ newer) :
    Fresh n (newer ++ k :: older) k ↔ newer.toFinset.card < n :=
  fresh_iff_mem_take.trans (mem_take_recency hk)

instance (n : Nat) (ks : List κ) (k : κ) : Decidable (Fresh n ks k) :=
  decidable_of_iff' _ fresh_iff_mem_take

theorem Fresh.mem (h : Fresh n ks k) : k ∈ ks := by
  obtain ⟨newer, older, rfl, -, -⟩ := h
  exact List.mem_append_right _ List.mem_cons_self

theorem toFinset_subset_erase (hk : k ∉ newer) (hsub : newer ⊆ ks) :
    newer.toFinset ⊆ ks.toFinset.erase k := by
  intro j hj
  rw [List.mem_toFinset] at hj
  exact Finset.mem_erase.mpr ⟨fun he : j = k => hk (he ▸ hj), List.mem_toFinset.mpr (hsub hj)⟩

theorem fresh_of_few (h : (ks.toFinset.erase k).card < n) : Fresh n (ks ++ k :: older) k := by
  have hfew {newer : List κ} (hk : k ∉ newer) (hsub : newer ⊆ ks) : newer.toFinset.card < n :=
    (Finset.card_le_card (toFinset_subset_erase hk hsub)).trans_lt h
  by_cases hk : k ∈ ks
  · obtain ⟨newer, rest, rfl, hnew⟩ := List.eq_append_cons_of_mem hk
    exact ⟨newer, rest ++ k :: older, by simp, hnew, hfew hnew (List.subset_append_left _ _)⟩
  · exact ⟨ks, older, rfl, hk, hfew hk (List.Subset.refl _)⟩

theorem fresh_of_mem (h : k ∈ ks) (hn : ks.toFinset.card ≤ n) : Fresh n ks k := by
  obtain ⟨newer, older, rfl, hk⟩ := List.eq_append_cons_of_mem h
  refine ⟨newer, older, rfl, hk, ?_⟩
  have hsub := toFinset_subset_erase hk (List.subset_append_left newer (k :: older))
  exact ((Finset.card_le_card hsub).trans_lt
    (Finset.card_erase_lt_of_mem (List.mem_toFinset.mpr h))).trans_le hn

theorem Fresh.of_append (h : Fresh n (newer ++ ks) k) (hk : k ∉ newer) : Fresh n ks k := by
  obtain ⟨front, rest, hsplit, hfront, hn⟩ := h
  rcases List.append_eq_append_iff.mp hsplit with ⟨between, rfl, rfl⟩ | ⟨between, rfl, hrest⟩
  · refine ⟨between, rest, rfl, fun h => hfront (List.mem_append_right _ h), ?_⟩
    refine (Finset.card_le_card fun j hj => ?_).trans_lt hn
    exact List.mem_toFinset.mpr (List.mem_append_right _ (List.mem_toFinset.mp hj))
  · cases between with
    | nil => exact ⟨[], rest, by simpa using hrest.symm, by simp, (Nat.zero_le _).trans_lt hn⟩
    | cons j between =>
      obtain ⟨rfl, -⟩ := List.cons_eq_cons.mp hrest
      exact absurd (List.mem_append_right _ List.mem_cons_self) hk

theorem forgotten_iff : Forgotten n ks k ↔ k ∈ ks ∧ ¬ Fresh n ks k := by
  constructor
  · rintro ⟨newer, older, rfl, hk, hn⟩
    exact ⟨List.mem_append_right _ List.mem_cons_self, fun h =>
      Nat.not_lt.mpr hn ((fresh_append hk).mp h)⟩
  · rintro ⟨hmem, hfresh⟩
    obtain ⟨newer, older, rfl, hk⟩ := List.eq_append_cons_of_mem hmem
    exact ⟨newer, older, rfl, hk, Nat.not_lt.mp fun h => hfresh ((fresh_append hk).mpr h)⟩

theorem take_filter_take {ks : List κ} (h : ks.Nodup) (k : κ) (n : Nat) :
    ((ks.take (n + 1)).filter (· ≠ k)).take n = (ks.filter (· ≠ k)).take n := by
  induction ks generalizing n with
  | nil => rfl
  | cons j ks ih =>
    obtain ⟨hj, hks⟩ := List.nodup_cons.mp h
    rw [List.take_succ_cons]
    by_cases hjk : j = k
    · subst hjk
      have hkeep {js : List κ} (hjs : js ⊆ ks) : js.filter (· ≠ j) = js :=
        List.filter_eq_self.mpr fun i hi => by simpa using fun he : i = j => hj (he ▸ hjs hi)
      rw [List.filter_cons_of_neg (by simp), List.filter_cons_of_neg (by simp),
        hkeep (List.take_subset _ _), hkeep (List.Subset.refl _), List.take_take, Nat.min_self]
    · rw [List.filter_cons_of_pos (by simpa using hjk), List.filter_cons_of_pos (by simpa using hjk)]
      cases n with
      | zero => rfl
      | succ n => rw [List.take_succ_cons, List.take_succ_cons, ih hks n]

/-- The cache holds the keys that were put last of these. -/
def Follows (c : Lru κ α) (ks : List κ) : Prop := c.entries.map Prod.fst = (recency ks).take c.capacity

theorem empty_follows (n : Nat) : (empty n : Lru κ α).Follows [] := by
  simp [Follows, empty, recency]

variable {c : Lru κ α} {a : α}

theorem Follows.put (h : c.Follows ks) (k : κ) (a : α) : (c.put k a).Follows (k :: ks) := by
  have hkeys : (c.entries.filter (·.1 ≠ k)).map Prod.fst = (c.entries.map Prod.fst).filter (· ≠ k) := by
    rw [List.filter_map]
    rfl
  show (((k, a) :: c.entries.filter (·.1 ≠ k)).take c.capacity).map Prod.fst = _
  rw [List.map_take, List.map_cons, hkeys, show c.entries.map Prod.fst = _ from h]
  show _ = (recency (k :: ks)).take c.capacity
  cases c.capacity with
  | zero => rfl
  | succ n => rw [List.take_succ_cons, recency, List.take_succ_cons, take_filter_take (nodup_recency ks)]

theorem contains_iff : c.contains k = true ↔ k ∈ c.entries.map Prod.fst := by
  simp [contains, peek?]

theorem Follows.contains_iff (h : c.Follows ks) : c.contains k = true ↔ Fresh c.capacity ks k := by
  rw [Lru.contains_iff, show c.entries.map Prod.fst = _ from h, fresh_iff_mem_take]

theorem peek?_put_self (hc : 0 < c.capacity) : (c.put k a).peek? k = some a := by
  obtain ⟨n, hn⟩ := Nat.exists_eq_add_one_of_ne_zero (Nat.ne_of_gt hc)
  simp [peek?, put, hn]

theorem peek?_put_of_ne (hj : j ≠ k) (h : (c.put k a).contains j = true) :
    (c.put k a).peek? j = c.peek? j := by
  obtain ⟨b, hb⟩ := Option.isSome_iff_exists.mp h
  obtain ⟨e, he, rfl⟩ := Option.map_eq_some_iff.mp hb
  have hall : c.entries.find? (·.1 = j) = some e := by
    rw [← (List.take_prefix _ _).find?_eq_some he, List.find?_cons_of_neg (by simpa using hj.symm),
      List.find?_filter]
    congr 1
    funext d
    by_cases hd : d.1 = j <;> simp [hd, hj]
  rw [hb, peek?, hall]
  rfl

section Marks

def marks (c : Lru κ Unit) (ks : List κ) : Lru κ Unit := ks.foldr (fun k c => (c.mark k).2) c

variable {c : Lru κ Unit}

theorem marks_append (c : Lru κ Unit) (ks js : List κ) : c.marks (ks ++ js) = (c.marks js).marks ks :=
  List.foldr_append

theorem marks_capacity (c : Lru κ Unit) (ks : List κ) : (c.marks ks).capacity = c.capacity := by
  induction ks with
  | nil => rfl
  | cons k ks ih => exact ih

theorem empty_marks_follows (n : Nat) (ks : List κ) : ((empty n : Lru κ Unit).marks ks).Follows ks := by
  induction ks with
  | nil => exact empty_follows n
  | cons k ks ih => exact ih.put k ()

theorem contains_marks : ((empty n : Lru κ Unit).marks ks).contains k = true ↔ Fresh n ks k := by
  rw [(empty_marks_follows n ks).contains_iff, marks_capacity]
  rfl

end Marks

end BlockAgreement.Lru
