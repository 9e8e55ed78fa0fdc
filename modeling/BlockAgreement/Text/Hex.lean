import BlockAgreement.Bytes

/-!
# Hexadecimal text

A byte is two digits, the high one first, with lower-case letters. Reading takes only what writing
produces.
-/

set_option autoImplicit false

namespace BlockAgreement.Hex

def digits : List Char := "0123456789abcdef".toList

def encode (bs : Bytes) : String :=
  String.ofList (bs.flatMap fun b => [digits.getD (b.toNat / 16) '0', digits.getD (b.toNat % 16) '0'])

def value? (c : Char) : Option Nat :=
  if '0' ≤ c ∧ c ≤ '9' then some (c.toNat - '0'.toNat)
  else if 'a' ≤ c ∧ c ≤ 'f' then some (c.toNat - 'a'.toNat + 10)
  else none

def ofDigits? : List Char → Option Bytes
  | [] => some []
  | [_] => none
  | a :: b :: rest => do
    let high ← value? a
    let low ← value? b
    let bs ← ofDigits? rest
    return UInt8.ofNat (16 * high + low) :: bs

def decode? (s : String) : Option Bytes := ofDigits? s.toList

end BlockAgreement.Hex
