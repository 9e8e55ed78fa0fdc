import BlockAgreement.Scheme
import BlockAgreement.View

/-!
# Headers and blocks

A header carries two kinds of seals. The proposer's seal signs `sealHash`, which leaves out every
seal; committed seals sign a digest made from `hash`, which leaves out only the committed seals. So
the hash that validators agree on does not change when the committed seals are attached.
-/

set_option autoImplicit false

namespace BlockAgreement

/-- A header's vote to add a validator or to remove one. -/
structure MembershipVote where
  target : Address
  authorize : Bool
  deriving DecidableEq, Repr

structure Extra where
  /-- The whole committee in a checkpoint header, empty in any other. -/
  validators : List Address
  proposerSeal : Option Signature
  committedSeals : List Signature
  deriving DecidableEq, Repr

def Extra.empty : Extra := ⟨[], none, []⟩

structure Header where
  parentHash : Digest
  number : Height
  timestamp : UInt64
  /-- Tells the headers of this engine from all others. -/
  marker : Digest
  dataHash : Digest
  vote : Option MembershipVote
  extra : Extra
  deriving DecidableEq, Repr

structure Block where
  header : Header
  data : Bytes
  deriving DecidableEq, Repr

instance : Wire MembershipVote :=
  ⟨(Wire.codec : Codec (Address × Bool)).map (fun (t, a) => ⟨t, a⟩) (fun v => (v.target, v.authorize))⟩

instance : Wire Extra :=
  ⟨(Wire.codec : Codec (List Address × Option Signature × List Signature)).map
    (fun (vs, p, cs) => ⟨vs, p, cs⟩) (fun e => (e.validators, e.proposerSeal, e.committedSeals))⟩

instance : Wire Header :=
  ⟨(Wire.codec : Codec (Digest × Height × UInt64 × Digest × Digest × Option MembershipVote × Extra)).map
    (fun (p, n, t, m, d, v, e) => ⟨p, n, t, m, d, v, e⟩)
    (fun h => (h.parentHash, h.number, h.timestamp, h.marker, h.dataHash, h.vote, h.extra))⟩

instance : Wire Block :=
  ⟨(Wire.codec : Codec (Header × Bytes)).map (fun (h, d) => ⟨h, d⟩) (fun b => (b.header, b.data))⟩

def engineMarker : Digest := 0x63746963616c2062797a616e74696e65206661756c7420746f6c6572616e6365

/-- What a validator signs to commit to the block with this hash. The byte after the hash is the tag
of a Commit message. -/
def commitDigest [Scheme] (blockHash : Digest) : Digest := hash (Wire.encode blockHash ++ [2])

namespace Header

variable [Scheme]

def genesis (validators : List Address) (timestamp : UInt64) : Header where
  parentHash := 0
  number := 0
  timestamp
  marker := engineMarker
  dataHash := hash []
  vote := none
  extra := { Extra.empty with validators }

omit [Scheme] in
def withoutCommittedSeals (h : Header) : Header :=
  { h with extra := { h.extra with committedSeals := [] } }

omit [Scheme] in
def withoutSeals (h : Header) : Header :=
  { h with extra := { h.extra with proposerSeal := none, committedSeals := [] } }

/-- Identifies the header. -/
def hash (h : Header) : Digest := hashOf h.withoutCommittedSeals

/-- What the proposer signs. -/
def sealHash (h : Header) : Digest := hashOf h.withoutSeals

def author (h : Header) : Option Address := h.extra.proposerSeal.bind (recover h.sealHash)

def committers (h : Header) : Option (List Address) :=
  h.extra.committedSeals.mapM (recover (commitDigest h.hash))

omit [Scheme] in
def isMarked (h : Header) : Bool := h.marker == engineMarker

end Header

namespace Block

variable [Scheme]

def create (header : Header) (data : Bytes) : Block :=
  ⟨{ header with dataHash := Scheme.hash data }, data⟩

def hash (b : Block) : Digest := b.header.hash

omit [Scheme] in
def number (b : Block) : Height := b.header.number

def isCorrect (b : Block) : Bool := b.header.dataHash == Scheme.hash b.data

def sealedBy (signer : Signer) (b : Block) : Option Block :=
  (signer.sign b.header.sealHash).map fun sig =>
    { b with header := { b.header with extra :=
      { b.header.extra with proposerSeal := some sig, committedSeals := [] } } }

end Block

end BlockAgreement
