import BlockAgreement.Governance.Archive

/-!
# Validity of headers

A header is valid on a ledger if it carries the engine's marker, follows its parent in number and time,
lists the committee exactly if it is a checkpoint, and is sealed by a member of the committee after its
parent. A final one also carries committed seals of a quorum of distinct members and of no one else.
-/

set_option autoImplicit false

namespace BlockAgreement

/-- Why a header or a proposal is not valid, or not made. -/
inductive HeaderFault where
  | invalidExtra
  | missingMarker
  | invalidProposerSeal
  | unauthorizedProposer (author : Address)
  | insufficientCommittedSeals (required found : Nat)
  | invalidCommittedSeal
  | invalidCheckpointVote
  | mismatchingCheckpointValidators
  | unknownAncestor
  | invalidTimestamp
  | invalidDataHash
  | stoppedEngine
  | snapshot (fault : SnapshotFault)
  | signing
  deriving DecidableEq, Repr

instance : ToString HeaderFault :=
  ⟨fun
    | .invalidExtra => "InvalidExtra"
    | .missingMarker => "MissingMarker"
    | .invalidProposerSeal => "InvalidProposerSeal"
    | .unauthorizedProposer a => s!"UnauthorizedProposer({a.text})"
    | .insufficientCommittedSeals required found =>
      s!"InsufficientCommittedSeals \x7b required: {required}, found: {found} \x7d"
    | .invalidCommittedSeal => "InvalidCommittedSeal"
    | .invalidCheckpointVote => "InvalidCheckpointVote"
    | .mismatchingCheckpointValidators => "MismatchingCheckpointValidators"
    | .unknownAncestor => "UnknownAncestor"
    | .invalidTimestamp => "InvalidTimestamp"
    | .invalidDataHash => "InvalidDataHash"
    | .stoppedEngine => "StoppedEngine"
    | .snapshot fault => s!"Snapshot({fault})"
    | .signing => "Signing"⟩

namespace HeaderRules

variable [Scheme]

def checkExtra (epoch : Epoch) (s : Snapshot) (h : Header) : Except HeaderFault Unit :=
  if epoch.isCheckpoint h.number then
    if h.vote.isSome then .error .invalidCheckpointVote
    else if h.extra.validators ≠ s.committee.members then .error .mismatchingCheckpointValidators
    else .ok ()
  else if h.extra.validators.isEmpty then .ok ()
  else .error .invalidExtra

def author (h : Header) : Except HeaderFault Address :=
  match h.author with
  | none => .error .invalidProposerSeal
  | some a => .ok a

def checkAuthor (s : Snapshot) (h : Header) : Except HeaderFault Unit := do
  let a ← author h
  if s.committee.contains a then return () else throw (.unauthorizedProposer a)

def checkCommitters (s : Snapshot) (h : Header) : Except HeaderFault Unit :=
  match h.committers with
  | none => .error .invalidCommittedSeal
  | some cs =>
    if cs.all s.committee.contains ∧ cs.Nodup then
      if s.committee.quorum ≤ cs.length then .ok ()
      else .error (.insufficientCommittedSeals s.committee.quorum cs.length)
    else .error .invalidCommittedSeal

variable {σ : Type} [Ledger σ]

/-- Checks a header, with its committed seals if `final`. The genesis header is trusted as it is. -/
def verify (ledger : σ) (archive : Archive) (h : Header) (final : Bool) :
    Except HeaderFault Unit × Archive :=
  if !h.isMarked then (.error .missingMarker, archive)
  else if h.number = 0 then (.ok (), archive)
  else
    match Ledger.headerOf? ledger h.parentHash with
    | none => (.error .unknownAncestor, archive)
    | some parent =>
      if next? parent.number ≠ some h.number then (.error .unknownAncestor, archive)
      else if h.timestamp < parent.timestamp then (.error .invalidTimestamp, archive)
      else
        match archive.parentSnapshot ledger h.number h.parentHash with
        | (.error e, archive) => (.error (.snapshot e), archive)
        | (.ok s, archive) =>
          (do
            checkExtra archive.epoch s h
            checkAuthor s h
            if final then checkCommitters s h,
           archive)

/-- Checks a block that is proposed on top of the ledger. It carries no committed seals yet. -/
def verifyProposal (ledger : σ) (archive : Archive) (b : Block) : Except HeaderFault Unit × Archive :=
  if b.isCorrect then verify ledger archive b.header false else (.error .invalidDataHash, archive)

end HeaderRules

end BlockAgreement
