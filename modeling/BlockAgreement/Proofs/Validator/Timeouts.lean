import BlockAgreement.Proofs.Committee.Rotation
import BlockAgreement.Validator

/-!
# How long a round lasts

A machine keeps a duration as seconds and nanoseconds, and its arithmetic has limits of its own: those
of the exponent, of the power and of the seconds. Only the limit of the power shows in the result. A
round lasts twice as long as the one before it, up to the maximum, as long as the power of two is a
32-bit number. Later rounds last as long as the maximum, even where they should be shorter.
-/

set_option autoImplicit false

namespace BlockAgreement

def product? (m n : UInt64) : Option UInt64 :=
  if m.toNat * n.toNat < UInt64.size then some (m * n) else none

theorem toNat_product_sum (m n k : UInt64) : ((product? m n).bind (sum? · k)).map UInt64.toNat =
    if m.toNat * n.toNat + k.toNat < UInt64.size then some (m.toNat * n.toNat + k.toNat) else none := by
  unfold product?
  split
  · rename_i hproduct
    have hvalue : (m * n).toNat = m.toNat * n.toNat := by
      rw [UInt64.toNat_mul]
      exact Nat.mod_eq_of_lt hproduct
    rw [Option.bind_some, sum?, hvalue]
    split
    · rename_i hsum
      rw [Option.map_some, UInt64.toNat_add, hvalue]
      exact congrArg some (Nat.mod_eq_of_lt hsum)
    · rfl
  · rw [if_neg (by omega)]
    rfl

def power? (base exponent : UInt32) : Option UInt32 :=
  if base.toNat ^ exponent.toNat < UInt32.size then some (UInt32.ofNat (base.toNat ^ exponent.toNat))
  else none

def narrow? (n : UInt64) : Option UInt32 := if n.toNat < UInt32.size then some n.toUInt32 else none

theorem toNat_rest (total : UInt64) :
    (total % 1_000_000_000).toUInt32.toNat = total.toNat % 1_000_000_000 := by
  rw [UInt64.toNat_toUInt32, UInt64.toNat_mod]
  exact Nat.mod_eq_of_lt ((Nat.mod_lt _ (by decide)).trans (by decide))

/-- A duration in whole seconds and the nanoseconds of one more. -/
structure Span where
  seconds : UInt64
  nanos : UInt32
  nanos_lt : nanos.toNat < 1_000_000_000
  deriving DecidableEq

namespace Span

variable {s t : Span}

def toNat (s : Span) : Nat := s.seconds.toNat * 1_000_000_000 + s.nanos.toNat

def times? (s : Span) (n : UInt32) : Option Span :=
  let total := s.nanos.toUInt64 * n.toUInt64
  ((product? s.seconds n.toUInt64).bind (sum? · (total / 1_000_000_000))).map fun seconds =>
    ⟨seconds, (total % 1_000_000_000).toUInt32, by
      rw [toNat_rest]
      exact Nat.mod_lt _ (by decide)⟩

def least (s t : Span) : Span :=
  if s.seconds < t.seconds ∨ s.seconds = t.seconds ∧ s.nanos ≤ t.nanos then s else t

/-- The time of a round: the request doubled as often as the round says, and at most the maximum. Where a
number gets too large on the way, it is the maximum. -/
def timeout (request maximum : Span) (round : Round) : Span :=
  (((narrow? round).bind (power? 2)).bind request.times?).elim maximum (least · maximum)

def limit : Nat := UInt64.size * 1_000_000_000

theorem toNat_lt (s : Span) : s.toNat < limit := by
  have hseconds := s.seconds.toNat_lt_size
  have hnanos := s.nanos_lt
  unfold toNat limit
  omega

theorem toNat_least (s t : Span) : (least s t).toNat = min s.toNat t.toNat := by
  have hs := s.nanos_lt
  have ht := t.nanos_lt
  unfold least
  split
  · rename_i h
    rw [UInt64.lt_iff_toNat_lt, ← UInt64.toNat_inj, UInt32.le_iff_toNat_le] at h
    unfold toNat
    omega
  · rename_i h
    rw [UInt64.lt_iff_toNat_lt, ← UInt64.toNat_inj, UInt32.le_iff_toNat_le] at h
    unfold toNat
    omega

theorem times?_eq (s : Span) (n : UInt32) :
    (s.times? n).map toNat = if s.toNat * n.toNat < limit then some (s.toNat * n.toNat) else none := by
  -- the nanoseconds of the multiple, which carry over into its seconds
  obtain ⟨total, htotal⟩ : ∃ total, total = s.nanos.toUInt64 * n.toUInt64 := ⟨_, rfl⟩
  have hnanos : total.toNat = s.nanos.toNat * n.toNat := by
    have hsmall : s.nanos.toNat * n.toNat < 1_000_000_000 * UInt32.size :=
      Nat.mul_lt_mul'' s.nanos_lt n.toNat_lt_size
    rw [htotal, UInt64.toNat_mul, UInt32.toNat_toUInt64, UInt32.toNat_toUInt64]
    exact Nat.mod_eq_of_lt (hsmall.trans (by decide))
  have hvalue : s.toNat * n.toNat = s.seconds.toNat * n.toNat * 1_000_000_000 + total.toNat := by
    rw [toNat, Nat.add_mul, Nat.mul_right_comm, hnanos]
  have hseconds := toNat_product_sum s.seconds n.toUInt64 (total / 1_000_000_000)
  rw [UInt64.toNat_div, UInt32.toNat_toUInt64,
    show (1_000_000_000 : UInt64).toNat = 1_000_000_000 from rfl] at hseconds
  calc (s.times? n).map toNat
      = (((product? s.seconds n.toUInt64).bind (sum? · (total / 1_000_000_000))).map UInt64.toNat).map
          (· * 1_000_000_000 + total.toNat % 1_000_000_000) := by
        rw [times?, Option.map_map, Option.map_map, ← toNat_rest, htotal]
        rfl
    _ = if s.toNat * n.toNat < limit then some (s.toNat * n.toNat) else none := by
        rw [hseconds, hvalue, limit]
        split
        · rw [if_pos (by omega), Option.map_some]
          exact congrArg some (by omega)
        · rw [if_neg (by omega)]
          rfl

theorem power?_two (round : Round) :
    ((narrow? round).bind (power? 2)).map UInt32.toNat =
      if round < 32 then some (2 ^ round.toNat) else none := by
  have hpower : 2 ^ round.toNat < UInt32.size ↔ round < 32 := by
    rw [UInt64.lt_iff_toNat_lt]
    exact Nat.pow_lt_pow_iff_right (a := 2) (m := 32) (by decide)
  unfold narrow?
  split
  · rename_i hnarrow
    have hround : round.toUInt32.toNat = round.toNat := by
      rw [UInt64.toNat_toUInt32]
      exact Nat.mod_eq_of_lt hnarrow
    rw [Option.bind_some, power?, hround, show (2 : UInt32).toNat = 2 from rfl]
    by_cases h : round < 32
    · rw [if_pos h, if_pos (hpower.mpr h), Option.map_some, UInt32.toNat_ofNat_of_lt' (hpower.mpr h)]
    · rw [if_neg h, if_neg (mt hpower.mp h), Option.map_none]
  · rename_i hwide
    rw [if_neg (fun h => hwide (h.trans (by decide)))]
    rfl

theorem toNat_timeout (request maximum : Span) (round : Round) :
    (request.timeout maximum round).toNat =
      (Timer.idle request.toNat maximum.toNat).timeout round := by
  have hpower := power?_two round
  unfold timeout Timer.timeout
  cases hfactor : (narrow? round).bind (power? 2) with
  | none =>
    have hlate : ¬ round < 32 := by simpa [hfactor] using hpower
    rw [if_neg hlate]
    rfl
  | some factor =>
    obtain ⟨hearly, hvalue⟩ : round < 32 ∧ factor.toNat = 2 ^ round.toNat := by
      simpa [hfactor] using hpower
    have htimes := request.times?_eq factor
    rw [if_pos hearly, Option.bind_some]
    cases hspan : request.times? factor with
    | none =>
      have hlarge : limit ≤ request.toNat * 2 ^ round.toNat := by simpa [hspan, hvalue] using htimes
      exact (Nat.min_eq_right (maximum.toNat_lt.le.trans hlarge)).symm
    | some s =>
      obtain ⟨-, hs⟩ : _ ∧ s.toNat = request.toNat * 2 ^ round.toNat := by
        simpa [hspan, hvalue] using htimes
      exact (toNat_least s maximum).trans (congrArg (min · maximum.toNat) hs)

end Span

namespace Timer

theorem timeout_eq_iff {t : Timer} {round : Round} :
    t.timeout round = min (t.request * 2 ^ round.toNat) t.maximum ↔
      round < 32 ∨ t.maximum ≤ t.request * 2 ^ round.toNat := by
  unfold timeout
  split
  · rename_i hearly
    exact iff_of_true rfl (.inl hearly)
  · rename_i hlate
    rw [eq_comm, min_eq_right_iff, or_iff_right hlate]

theorem pow_le_of_not_lt {round : Round} (h : ¬ round < 32) : 2 ^ 32 ≤ 2 ^ round.toNat := by
  rw [UInt64.lt_iff_toNat_lt, Nat.not_lt] at h
  exact Nat.pow_le_pow_right (by decide) h

/-- A round lasts as long as the request, doubled as often as the round says, and at most as long as the
maximum. This holds to the nanosecond, whatever limits of its numbers the machine runs into, of the
first 32 rounds and of those that the maximum cuts short. Any other round lasts as long as the maximum.
So it holds of every round if and only if 32 doublings take the request to the maximum. -/
theorem doubles_up_to_maximum (request maximum : Span) :
    let t := Timer.idle request.toNat maximum.toNat
    let doubled (round : Round) := min (request.toNat * 2 ^ round.toNat) maximum.toNat
    (∀ round, (request.timeout maximum round).toNat = t.timeout round ∧
      (t.timeout round = doubled round ∨ t.timeout round = maximum.toNat) ∧
      (t.timeout round = doubled round ↔
        round < 32 ∨ maximum.toNat ≤ request.toNat * 2 ^ round.toNat)) ∧
    ((∀ round, t.timeout round = doubled round) ↔ maximum.toNat ≤ request.toNat * 2 ^ 32) := by
  intro t doubled
  have hiff (round : Round) : t.timeout round = doubled round ↔
      round < 32 ∨ maximum.toNat ≤ request.toNat * 2 ^ round.toNat := timeout_eq_iff
  refine ⟨fun round => ⟨request.toNat_timeout maximum round, ?_, hiff round⟩, ?_⟩
  · rw [hiff]
    by_cases hearly : round < 32
    · exact .inl (.inl hearly)
    · exact .inr (if_neg hearly)
  · constructor
    · intro hall
      exact ((hiff 32).mp (hall 32)).resolve_left (by decide)
    · intro hreached round
      rw [hiff]
      by_cases hearly : round < 32
      · exact .inl hearly
      · exact .inr (hreached.trans (Nat.mul_le_mul_left _ (pow_le_of_not_lt hearly)))

/-- A validator starts with a request of one nanosecond and a maximum of one hour. Its round 31 lasts
for two seconds, and round 32 should last for four, but it lasts for an hour. -/
theorem round_outlasts_doubling :
    let s : Settings := { requestTimeout := 1, maximumTimeout := 3_600_000_000_000 }
    let t := Timer.idle s.requestTimeout s.maximumTimeout
    s.check = .ok () ∧ t.timeout 31 = 2_147_483_648 ∧ t.timeout 32 = 3_600_000_000_000 ∧
      min (t.request * 2 ^ (32 : Round).toNat) t.maximum = 4_294_967_296 ∧
      t.timeout 32 ≠ min (t.request * 2 ^ (32 : Round).toNat) t.maximum := by
  decide

end Timer

end BlockAgreement
