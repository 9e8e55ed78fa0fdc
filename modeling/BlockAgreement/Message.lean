import BlockAgreement.Block

/-!
# Consensus messages

A message carries the encoding of its body, its sender's address and signature, and, if it is a
Commit, a committed seal. The signature covers the message with an empty signature in its place.
-/

set_option autoImplicit false

namespace BlockAgreement

inductive MessageKind where
  | preprepare
  | prepare
  | commit
  | roundChange
  deriving DecidableEq, Repr

namespace MessageKind

instance : Wire MessageKind :=
  ⟨Codec.tagged (fun | preprepare => 0 | prepare => 1 | commit => 2 | roundChange => 3)
    (fun t =>
      if t = 0 then .ok preprepare else if t = 1 then .ok prepare else if t = 2 then .ok commit
      else if t = 3 then .ok roundChange else .error (.unknownTag t))⟩

instance : ToString MessageKind :=
  ⟨fun
    | preprepare => "Preprepare"
    | prepare => "Prepare"
    | commit => "Commit"
    | roundChange => "RoundChange"⟩

end MessageKind

/-- The body of a Preprepare: the proposer of a view proposes a block. -/
structure Preprepare where
  view : View
  proposal : Block
  deriving DecidableEq, Repr

instance : Wire Preprepare :=
  ⟨(Wire.codec : Codec (View × Block)).map (fun (v, b) => ⟨v, b⟩) (fun p => (p.view, p.proposal))⟩

/-- The body of the other messages. A RoundChange names the view to move to and a zero digest. -/
structure Subject where
  view : View
  digest : Digest
  deriving DecidableEq, Repr

instance : Wire Subject :=
  ⟨(Wire.codec : Codec (View × Digest)).map (fun (v, d) => ⟨v, d⟩) (fun s => (s.view, s.digest))⟩

structure Message where
  kind : MessageKind
  body : Bytes
  sender : Address
  signature : Signature
  /-- Present in a Commit only. -/
  committedSeal : Option Signature
  deriving DecidableEq, Repr

instance : Wire Message :=
  ⟨(Wire.codec : Codec (MessageKind × Bytes × Address × Signature × Option Signature)).map
    (fun (k, b, a, s, c) => ⟨k, b, a, s, c⟩)
    (fun m => (m.kind, m.body, m.sender, m.signature, m.committedSeal))⟩

/-- Why a message or its committed seal does not verify. -/
inductive Forgery where
  | invalidSignature
  | signerMismatch
  | missingCommittedSeal
  deriving DecidableEq, Repr

instance : ToString Forgery :=
  ⟨fun
    | .invalidSignature => "InvalidSignature"
    | .signerMismatch => "SignerMismatch"
    | .missingCommittedSeal => "MissingCommittedSeal"⟩

namespace Message

variable [Scheme]

def signingDigest (m : Message) : Digest := hashOf { m with signature := .empty }

def signed (signer : Signer) (kind : MessageKind) (body : Bytes) (committedSeal : Option Signature) :
    Option Message :=
  let m : Message := { kind, body, sender := signer.address, signature := .empty, committedSeal }
  (signer.sign m.signingDigest).map fun signature => { m with signature }

def ofPreprepare (signer : Signer) (p : Preprepare) : Option Message :=
  signed signer .preprepare (Wire.encode p) none

def prepare (signer : Signer) (s : Subject) : Option Message :=
  signed signer .prepare (Wire.encode s) none

/-- A Commit carries the signer's committed seal over the digest of its subject. -/
def commit (signer : Signer) (s : Subject) : Option Message := do
  let committedSeal ← signer.sign (commitDigest s.digest)
  signed signer .commit (Wire.encode s) (some committedSeal)

def roundChange (signer : Signer) (view : View) : Option Message :=
  signed signer .roundChange (Wire.encode (Subject.mk view 0)) none

def verify (m : Message) : Except Forgery Unit :=
  match recover m.signingDigest m.signature with
  | none => .error .invalidSignature
  | some a => if a = m.sender then .ok () else .error .signerMismatch

def verifyCommittedSeal (m : Message) (digest : Digest) : Except Forgery Unit :=
  match m.committedSeal with
  | none => .error .missingCommittedSeal
  | some sig =>
    match recover (commitDigest digest) sig with
    | none => .error .invalidSignature
    | some a => if a = m.sender then .ok () else .error .signerMismatch

omit [Scheme]

/-- The view of the body. Both kinds of body start with it, so the rest is not read. -/
def view (m : Message) : Except DecodeError View := Wire.decodeFront m.body

def preprepare (m : Message) : Except DecodeError Preprepare := Wire.decode m.body

def subject (m : Message) : Except DecodeError Subject := Wire.decode m.body

end Message

end BlockAgreement
