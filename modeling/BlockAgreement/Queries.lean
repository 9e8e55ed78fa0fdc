import BlockAgreement.HeaderRules

/-!
# Queries

Questions about the blocks of a ledger: who sealed them, and what the committee was after them. A block
is named by its number, where none stands for the head, or by its hash.
-/

set_option autoImplicit false

namespace BlockAgreement

inductive QueryFault where
  | unknownBlock
  | snapshot (fault : SnapshotFault)
  | header (fault : HeaderFault)
  deriving DecidableEq, Repr

instance : ToString QueryFault :=
  ⟨fun
    | .unknownBlock => "UnknownBlock"
    | .snapshot fault => s!"Snapshot({fault})"
    | .header fault => s!"Engine({fault})"⟩

/-- How a block is named in a query. -/
inductive BlockName where
  | head
  | number (n : Height)
  | hash (d : Digest)
  deriving DecidableEq, Repr

structure BlockSigners where
  number : Height
  hash : Digest
  /-- Absent if the block carries no proposer seal. -/
  author : Option Address
  committers : List Address
  deriving DecidableEq, Repr

namespace Queries

variable {σ : Type} [Scheme] [Ledger σ]

def header (ledger : σ) : BlockName → Except QueryFault Header
  | .head => .ok (Ledger.head ledger)
  | .number n => ((Ledger.headerAt? ledger n).map .ok).getD (.error .unknownBlock)
  | .hash d => ((Ledger.headerOf? ledger d).map .ok).getD (.error .unknownBlock)

def signersOf (h : Header) : Except QueryFault BlockSigners :=
  match h.extra.proposerSeal, h.author, h.committers with
  | some _, none, _ => .error (.header .invalidProposerSeal)
  | _, _, none => .error (.header .invalidCommittedSeal)
  | _, author, some committers => .ok ⟨h.number, h.hash, author, committers⟩

def signers (ledger : σ) (name : BlockName) : Except QueryFault BlockSigners :=
  header ledger name >>= signersOf

def snapshot (ledger : σ) (archive : Archive) (name : BlockName) :
    Except QueryFault Snapshot × Archive :=
  match header ledger name with
  | .error e => (.error e, archive)
  | .ok h =>
    let hash := match name with | .hash d => d | _ => h.hash
    let (result, archive) := archive.snapshot ledger h.number hash
    (result.mapError .snapshot, archive)

end Queries

end BlockAgreement
