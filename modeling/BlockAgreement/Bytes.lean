/-!
# Byte strings and the digits of numbers

A number below `256 ^ n` and a string of `n` bytes carry the same information. Both directions are
here, least significant byte first; the other order is a reversal.
-/

set_option autoImplicit false

namespace BlockAgreement

abbrev Bytes := List UInt8

/-- `n` copies of a byte string, one after the other. However many there are, copies of the empty
string make the empty string. -/
def Bytes.copies (bs : Bytes) (n : Nat) : Bytes :=
  if bs.isEmpty then [] else (List.replicate n bs).flatten

namespace Digits

def little : Nat → Nat → Bytes
  | 0, _ => []
  | n + 1, v => UInt8.ofNat v :: little n (v / 256)

def value : Bytes → Nat
  | [] => 0
  | b :: bs => b.toNat + 256 * value bs

@[simp] theorem length_little (n v : Nat) : (little n v).length = n := by
  induction n generalizing v with
  | zero => rfl
  | succ n ih => simp [little, ih]

theorem value_lt (bs : Bytes) : value bs < Nat.pow 256 bs.length := by
  induction bs with
  | nil => exact Nat.one_pos
  | cons b bs ih =>
    have := b.toNat_lt
    show b.toNat + 256 * value bs < Nat.pow 256 bs.length * 256
    omega

theorem value_little {n v : Nat} (h : v < Nat.pow 256 n) : value (little n v) = v := by
  induction n generalizing v with
  | zero =>
    have : v < 1 := h
    simp only [little, value]
    omega
  | succ n ih =>
    have h : v < Nat.pow 256 n * 256 := h
    have hv : v / 256 < Nat.pow 256 n := by omega
    simp only [little, value, ih hv, UInt8.toNat_ofNat']
    omega

theorem little_value (bs : Bytes) : little bs.length (value bs) = bs := by
  induction bs with
  | nil => rfl
  | cons b bs ih =>
    have hb := b.toNat_lt
    have hd : (b.toNat + 256 * value bs) / 256 = value bs := by omega
    have hm : UInt8.ofNat (b.toNat + 256 * value bs) = b := by
      apply UInt8.toNat_inj.mp
      rw [UInt8.toNat_ofNat']
      omega
    simp only [List.length_cons, value, little, hd, hm, ih]

end Digits

end BlockAgreement
