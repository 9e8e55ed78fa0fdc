/-!
# Maps as ascending lists

A finite map kept as a list of entries in ascending order of key, so that equal maps are equal lists.
-/

set_option autoImplicit false

namespace BlockAgreement

abbrev SortedMap (κ α : Type) := List (κ × α)

namespace SortedMap

variable {κ α : Type} [DecidableEq κ]

def find? (m : SortedMap κ α) (k : κ) : Option α := (List.find? (·.1 = k) m).map (·.2)

def insert [LT κ] [DecidableLT κ] (m : SortedMap κ α) (k : κ) (a : α) : SortedMap κ α :=
  match m with
  | [] => [(k, a)]
  | (j, b) :: rest =>
    if k < j then (k, a) :: (j, b) :: rest
    else if k = j then (k, a) :: rest
    else (j, b) :: insert rest k a

def erase (m : SortedMap κ α) (k : κ) : SortedMap κ α := m.filter (·.1 ≠ k)

@[simp] theorem find?_nil (k : κ) : find? ([] : SortedMap κ α) k = none := rfl

theorem find?_cons (j k : κ) (b : α) (m : SortedMap κ α) :
    find? ((j, b) :: m) k = if j = k then some b else find? m k := by
  simp only [find?, List.find?_cons]
  by_cases h : j = k <;> simp [h]

theorem find?_insert [LT κ] [DecidableLT κ] (m : SortedMap κ α) (k j : κ) (a : α) :
    find? (insert m k a) j = if k = j then some a else find? m j := by
  induction m with
  | nil => simp [insert, find?_cons]
  | cons e m ih =>
    obtain ⟨i, b⟩ := e
    simp only [insert]
    split
    · rw [find?_cons]
    · split
      · rename_i h
        subst h
        simp only [find?_cons]
        split <;> rfl
      · rename_i h
        simp only [find?_cons, ih]
        by_cases hk : k = j
        · subst hk; simp [Ne.symm h]
        · simp [hk]

theorem mem_insert [LT κ] [DecidableLT κ] {m : SortedMap κ α} {k : κ} {a : α} {e : κ × α}
    (he : e ∈ insert m k a) : e = (k, a) ∨ e ∈ m := by
  induction m with
  | nil => exact .inl (by simpa [insert] using he)
  | cons d m ih =>
    obtain ⟨j, b⟩ := d
    simp only [insert] at he
    split at he
    · simpa using he
    · split at he
      · rcases List.mem_cons.mp he with rfl | he
        · exact .inl rfl
        · exact .inr (List.mem_cons_of_mem _ he)
      · rcases List.mem_cons.mp he with rfl | he
        · exact .inr List.mem_cons_self
        · exact (ih he).imp_right (List.mem_cons_of_mem _)

theorem find?_erase (m : SortedMap κ α) (k j : κ) :
    find? (erase m k) j = if k = j then none else find? m j := by
  induction m with
  | nil => simp [erase]
  | cons e m ih =>
    obtain ⟨i, b⟩ := e
    simp only [erase, List.filter_cons, decide_not, Bool.not_eq_true', decide_eq_false_iff_not] at ih ⊢
    by_cases hi : i = k
    · subst hi
      simp only [not_true_eq_false, if_false, ih, find?_cons]
      split <;> rfl
    · simp only [hi, not_false_eq_true, if_true, find?_cons, ih]
      by_cases hk : k = j
      · subst hk; simp [hi]
      · simp [hk]

theorem find?_filter (m : SortedMap κ α) (p : κ → Bool) (k : κ) :
    find? (m.filter fun e => p e.1) k = if p k then find? m k else none := by
  induction m with
  | nil => simp
  | cons e m ih =>
    obtain ⟨j, b⟩ := e
    simp only [List.filter_cons, find?_cons]
    by_cases hj : j = k
    · subst hj
      cases hp : p j <;> simp [hp, ih, find?_cons]
    · cases hp : p j <;> simp [hj, ih, find?_cons]

theorem mem_of_find? {m : SortedMap κ α} {k : κ} {a : α} (h : find? m k = some a) : (k, a) ∈ m := by
  obtain ⟨⟨j, b⟩, hfound, rfl⟩ := Option.map_eq_some_iff.mp h
  obtain rfl : j = k := by simpa using List.find?_some hfound
  exact List.mem_of_find?_eq_some hfound

end SortedMap

end BlockAgreement
