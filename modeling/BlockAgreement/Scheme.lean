import BlockAgreement.Text.Base64
import BlockAgreement.Wire.Codec

/-!
# Addresses, digests and signatures

What the engine needs of cryptography: a hash, and signatures from which the address of the signer is
recovered. Nothing else here depends on which hash and which curve they are.
-/

set_option autoImplicit false

namespace BlockAgreement

abbrev Address := BitVec 160

abbrev Digest := BitVec 256

structure Signature where
  r : BitVec 256
  s : BitVec 256
  recovery : UInt8
  deriving DecidableEq, Repr

def Signature.empty : Signature := ⟨0, 0, 0⟩

class Scheme where
  hash : Bytes → Digest
  /-- The signer of a digest, unless the signature is malformed. -/
  recover : Digest → Signature → Option Address

export Scheme (hash recover)

/-- A signing key, seen through what it can do. -/
structure Signer where
  address : Address
  sign : Digest → Option Signature

def Signer.Honest [Scheme] (k : Signer) : Prop :=
  ∀ d sig, k.sign d = some sig → recover d sig = some k.address

instance : Wire Address := ⟨Codec.bigEndian 20⟩

instance : Wire Digest := ⟨Codec.bigEndian 32⟩

instance : Wire Signature :=
  ⟨(Wire.codec : Codec (Digest × Digest × UInt8)).map
    (fun (r, s, recovery) => ⟨r, s, recovery⟩) (fun sig => (sig.r, sig.s, sig.recovery))⟩

def hashOf {α : Type} [Scheme] [Wire α] (a : α) : Digest := hash (Wire.encode a)

def Address.text (a : Address) : String := Base64.encode (Wire.encode a)

def Digest.text (d : Digest) : String := Base64.encode (Wire.encode d)

def Signature.text (sig : Signature) : String :=
  s!"{Base64.encode (Wire.encode sig.r ++ Wire.encode sig.s)}:{sig.recovery}"

end BlockAgreement
