import BlockAgreement.Wire.Codec

/-!
# Heights, rounds and views

A block's height and a round are 64-bit numbers, and the last number of that size has no successor.
A view is one attempt to agree on the block of one height; views are ordered by sequence, then round.
-/

set_option autoImplicit false

namespace BlockAgreement

abbrev Height := UInt64

abbrev Round := UInt64

abbrev Epoch := UInt64

def labelled (label : String) (n : UInt64) : String := s!"{label}({n})"

/-- The number after `n`, if it is still a 64-bit number. Whoever has to count on from the last one fails,
since the sum overflows. -/
def next? (n : UInt64) : Option UInt64 := if n + 1 = 0 then none else some (n + 1)

def previous? (n : UInt64) : Option UInt64 := if n = 0 then none else some (n - 1)

theorem toNat_of_next? {n m : UInt64} (h : next? n = some m) : m.toNat = n.toNat + 1 := by
  simp only [next?] at h
  split at h
  · simp at h
  · rename_i hn
    obtain rfl := Option.some.inj h
    have h0 : (n + 1).toNat ≠ 0 := fun he => hn (UInt64.toNat_inj.mp (by simpa using he))
    have := n.toNat_lt
    rw [UInt64.toNat_add] at *
    simp at *
    omega

theorem next?_eq_none_iff {n : UInt64} : next? n = none ↔ n.toNat + 1 = UInt64.size := by
  have := n.toNat_lt_size
  have h0 : n + 1 = 0 ↔ n.toNat + 1 = UInt64.size := by
    rw [← UInt64.toNat_inj, UInt64.toNat_add, UInt64.toNat_one, UInt64.toNat_zero]
    simp only [UInt64.size] at *
    omega
  rw [← h0]
  simp [next?]

theorem next?_ne_none_of_le {n m : UInt64} (hle : n ≤ m) (hm : next? m ≠ none) : next? n ≠ none := by
  have := m.toNat_lt_size
  rw [UInt64.le_iff_toNat_le] at hle
  rw [Ne, next?_eq_none_iff] at hm ⊢
  omega

theorem le_of_next?_eq_none {n m : UInt64} (hn : next? n = none) : m ≤ n := by
  have := m.toNat_lt_size
  rw [next?_eq_none_iff] at hn
  rw [UInt64.le_iff_toNat_le]
  omega

theorem previous?_of_next? {n m : UInt64} (h : next? n = some m) : previous? m = some n := by
  have hm := toNat_of_next? h
  have hn : m ≠ 0 := by
    rintro rfl
    simp at hm
  rw [previous?, if_neg hn]
  congr 1
  apply UInt64.toNat_inj.mp
  have h1 : (1 : UInt64) ≤ m := by
    rw [UInt64.le_iff_toNat_le, UInt64.toNat_one]
    omega
  rw [UInt64.toNat_sub_of_le _ _ h1, UInt64.toNat_one]
  omega

/-- Checkpoints are the multiples of the epoch length. A length of zero leaves only the genesis
block, since a number modulo zero is the number itself. -/
def Epoch.isCheckpoint (epoch : Epoch) (number : Height) : Bool := number % epoch == 0

structure View where
  sequence : Height
  round : Round
  deriving DecidableEq, Repr

namespace View

instance : LT View :=
  ⟨fun u v => u.sequence < v.sequence ∨ u.sequence = v.sequence ∧ u.round < v.round⟩

instance (u v : View) : Decidable (u < v) :=
  inferInstanceAs (Decidable (u.sequence < v.sequence ∨ u.sequence = v.sequence ∧ u.round < v.round))

theorem lt_iff {u v : View} :
    u < v ↔ u.sequence < v.sequence ∨ u.sequence = v.sequence ∧ u.round < v.round := Iff.rfl

theorem lt_irrefl (v : View) : ¬ v < v := by
  simp [lt_iff]

theorem lt_trans {u v w : View} (h : u < v) (h' : v < w) : u < w := by
  rcases h with h | ⟨h, hr⟩ <;> rcases h' with h' | ⟨h', hr'⟩
  · exact Or.inl (UInt64.lt_trans h h')
  · exact Or.inl (h' ▸ h)
  · exact Or.inl (h ▸ h')
  · exact Or.inr ⟨h.trans h', UInt64.lt_trans hr hr'⟩

def order (u v : View) : Ordering := if u < v then .lt else if u = v then .eq else .gt

instance : Wire View :=
  ⟨(Wire.codec : Codec (Height × Round)).map (fun (s, r) => ⟨s, r⟩) (fun v => (v.sequence, v.round))⟩

instance : ToString View := ⟨fun v => s!"({v.sequence}, {v.round})"⟩

def describe (v : View) : String :=
  let sequence := labelled "Sequence" v.sequence
  let round := labelled "Round" v.round
  s!"View \x7b sequence: {sequence}, round: {round} \x7d"

end View

end BlockAgreement
