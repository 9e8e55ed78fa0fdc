import BlockAgreement.Crypto.Ecdsa
import BlockAgreement.Crypto.Keccak
import BlockAgreement.Scheme

/-!
# The scheme in use

Keccak-256 with recoverable ECDSA over secp256k1. An address is the last 20 bytes of the hash of the
public key, written as its two coordinates.
-/

set_option autoImplicit false

namespace BlockAgreement

def Address.ofPublicKey (key : Secp256k1.Affine) : Address :=
  (Keccak.hash256 (Ecdsa.bytes32 key.x ++ Ecdsa.bytes32 key.y)).setWidth 160

@[reducible] def Scheme.standard : Scheme where
  hash := Keccak.hash256
  recover digest sig :=
    (Ecdsa.recover digest.toNat ⟨sig.r.toNat, sig.s.toNat, sig.recovery.toNat⟩).map
      Address.ofPublicKey

def Signer.ofSecret? (secret : Nat) : Option Signer :=
  (Ecdsa.publicKey secret).map fun key =>
    { address := .ofPublicKey key
      sign := fun digest =>
        (Ecdsa.sign secret digest.toNat).map fun sig =>
          ⟨BitVec.ofNat _ sig.r, BitVec.ofNat _ sig.s, UInt8.ofNat sig.recovery⟩ }

end BlockAgreement
