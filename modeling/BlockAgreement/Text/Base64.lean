import BlockAgreement.Bytes

/-!
# Base64

The standard alphabet, with and without padding, and the short form that log lines use.
-/

set_option autoImplicit false

namespace BlockAgreement.Base64

def alphabet : List Char := "ABCDEFGHIJKLMNOPQRSTUVWXYZabcdefghijklmnopqrstuvwxyz0123456789+/".toList

def letter (v : Nat) : Char := alphabet.getD (v % 64) 'A'

def letters : Bytes → List Char
  | [] => []
  | [a] =>
    let v := a.toNat * 16
    [letter (v / 64), letter v]
  | [a, b] =>
    let v := (a.toNat * 256 + b.toNat) * 4
    [letter (v / 4096), letter (v / 64), letter v]
  | a :: b :: c :: rest =>
    let v := (a.toNat * 256 + b.toNat) * 256 + c.toNat
    letter (v / 262144) :: letter (v / 4096) :: letter (v / 64) :: letter v :: letters rest

def encode (bs : Bytes) : String :=
  let ls := letters bs
  String.ofList (ls ++ List.replicate ((4 - ls.length % 4) % 4) '=')

def abbreviate (bs : Bytes) : String := String.ofList ((letters bs).take 7)

end BlockAgreement.Base64
