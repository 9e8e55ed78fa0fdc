import BlockAgreement.Crypto.Secp256k1
import BlockAgreement.Crypto.Sha256

/-!
# Recoverable ECDSA

Signatures over secp256k1 with the deterministic nonce of RFC 6979, from which the public key can be
recovered. Only the lower of the two values of `s` is produced or accepted.
-/

set_option autoImplicit false

namespace BlockAgreement.Ecdsa

open Secp256k1

/-- Bit 0 of `recovery` says that the ordinate of the nonce point is odd, bit 1 that its abscissa is
not below the group order. -/
structure Recoverable where
  r : Nat
  s : Nat
  recovery : Nat

def bytes32 (v : Nat) : Bytes := (Digits.little 32 v).reverse

def nonceFrom : Nat → Bytes → Bytes → Option Nat
  | 0, _, _ => none
  | tries + 1, key, v =>
    let v := Sha256.hmac key v
    let k := Digits.value v.reverse
    if 0 < k ∧ k < n then some k
    else
      let key := Sha256.hmac key (v ++ [0])
      nonceFrom tries key (Sha256.hmac key v)

def nonce (secret digest : Nat) : Option Nat :=
  let seed := bytes32 secret ++ bytes32 digest
  let key := List.replicate 32 0
  let v := List.replicate 32 1
  let key := Sha256.hmac key (v ++ 0 :: seed)
  let v := Sha256.hmac key v
  let key := Sha256.hmac key (v ++ 1 :: seed)
  nonceFrom 64 key (Sha256.hmac key v)

def signWith (secret digest k : Nat) : Option Recoverable := do
  let point ← (Point.scaleGenerator k).toAffine?
  let r := point.x % n
  let s := inverseScalar k * ((digest + r * secret) % n) % n
  if r = 0 ∨ s = 0 then none
  else
    let high := n / 2 < s
    let odd := (point.y % 2 == 1) != decide high
    some ⟨r, if high then n - s else s, (if odd then 1 else 0) + (if n ≤ point.x then 2 else 0)⟩

def sign (secret digest : Nat) : Option Recoverable := do
  signWith secret digest (← nonce secret digest)

def recover (digest : Nat) (sig : Recoverable) : Option Affine := do
  if sig.r = 0 ∨ n ≤ sig.r ∨ sig.s = 0 ∨ n / 2 < sig.s ∨ 3 < sig.recovery then none
  else
    let x := if sig.recovery < 2 then sig.r else sig.r + n
    let point ← decompress x (sig.recovery % 2 == 1)
    let i := inverseScalar sig.r
    let u := (n - digest % n) * i % n
    let v := sig.s * i % n
    ((Point.scaleGenerator u).add (.scale v (.ofAffine point))).toAffine?

def publicKey (secret : Nat) : Option Affine :=
  if 0 < secret ∧ secret < n then (Point.scaleGenerator secret).toAffine? else none

end BlockAgreement.Ecdsa
