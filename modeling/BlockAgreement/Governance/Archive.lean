import BlockAgreement.Governance.Snapshot
import BlockAgreement.Ledger.Basic
import BlockAgreement.Lru

/-!
# The archive of snapshots

The snapshot after any block of a ledger. It is made from that of the nearest ancestor for which it is
known: because it was made lately, or because the ancestor is a checkpoint, whose header lists the whole
committee. Then the headers in between are applied.
-/

set_option autoImplicit false

namespace BlockAgreement

structure Archive where
  epoch : Epoch
  policy : ProposerPolicy
  recent : Lru Digest Snapshot

namespace Archive

def empty (epoch : Epoch) (policy : ProposerPolicy) (capacity : Nat) : Archive :=
  ⟨epoch, policy, .empty capacity⟩

def isRecent (a : Archive) (hash : Digest) : Bool := a.recent.contains hash

variable {σ : Type} [Scheme] [Ledger σ]

/-- The snapshot of the nearest known ancestor of the block, and the headers after it, oldest first.
`later` are the headers after the block itself. -/
def base (a : Archive) (ledger : σ) (number : Nat) (hash : Digest) (later : List Header) :
    Except SnapshotFault (Snapshot × List Header) × Archive :=
  match a.recent.get? hash with
  | (some s, recent) => (.ok (s, later), { a with recent })
  | (none, _) =>
    match Ledger.headerOf? ledger hash with
    | none => (.error .unknownAncestor, a)
    | some h =>
      if h.number.toNat ≠ number then (.error .unknownAncestor, a)
      else if a.epoch.isCheckpoint h.number then
        if h.extra.validators.isEmpty then (.error (.emptyCheckpointValidators h.number), a)
        else
          (.ok (.initial a.epoch h.number hash (.ofList h.extra.validators a.policy), later), a)
      else
        match number with
        | 0 => (.error .unknownAncestor, a)
        | parent + 1 => a.base ledger parent h.parentHash (h :: later)

/-- The snapshot after the block with this number and hash. -/
def snapshot (a : Archive) (ledger : σ) (number : Height) (hash : Digest) :
    Except SnapshotFault Snapshot × Archive :=
  match a.base ledger number.toNat hash [] with
  | (.error e, a) => (.error e, a)
  | (.ok (s, later), a) =>
    match s.apply later with
    | .error e => (.error e, a)
    | .ok s => (.ok s, { a with recent := a.recent.put s.hash s })

/-- The snapshot after the parent of a block with this number. -/
def parentSnapshot (a : Archive) (ledger : σ) (number : Height) (parentHash : Digest) :
    Except SnapshotFault Snapshot × Archive :=
  match previous? number with
  | none => (.error .unknownAncestor, a)
  | some parent => a.snapshot ledger parent parentHash

end Archive

end BlockAgreement
