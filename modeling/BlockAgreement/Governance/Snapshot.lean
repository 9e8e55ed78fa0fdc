import BlockAgreement.Committee
import BlockAgreement.Block
import BlockAgreement.SortedMap

/-!
# Snapshots of the committee

The committee after a block, with the votes on its membership that are pending there. Each header that
is applied may carry one vote of its author. A vote takes the place of the author's earlier vote on the
same target; it counts if it would change the membership, and a target whose count reaches the quorum
joins or leaves at once. Checkpoints discard whatever is pending.
-/

set_option autoImplicit false

namespace BlockAgreement

/-- Why the snapshot after a block cannot be made. -/
inductive SnapshotFault where
  | unknownAncestor
  | unauthorizedValidator (author : Address)
  | invalidVotingChain
  | invalidSignature (number : Height)
  | emptyCheckpointValidators (number : Height)
  deriving DecidableEq, Repr

instance : ToString SnapshotFault :=
  ⟨fun
    | .unknownAncestor => "UnknownAncestor"
    | .unauthorizedValidator a => s!"UnauthorizedValidator({a.text})"
    | .invalidVotingChain => "InvalidVotingChain"
    | .invalidSignature n => "InvalidSignature(" ++ labelled "BlockNumber" n ++ ")"
    | .emptyCheckpointValidators n => "EmptyCheckpointValidators(" ++ labelled "BlockNumber" n ++ ")"⟩

structure Vote where
  signer : Address
  block : Height
  target : Address
  authorize : Bool
  deriving DecidableEq, Repr

structure Tally where
  authorize : Bool
  votes : Nat
  deriving DecidableEq, Repr

structure Snapshot where
  epoch : Epoch
  number : Height
  hash : Digest
  /-- In the order in which they were cast. -/
  votes : List Vote
  tally : SortedMap Address Tally
  committee : Committee

namespace Snapshot

def initial (epoch : Epoch) (number : Height) (hash : Digest) (committee : Committee) : Snapshot :=
  ⟨epoch, number, hash, [], [], committee⟩

def isMeaningful (s : Snapshot) (target : Address) (authorize : Bool) : Bool :=
  s.committee.contains target != authorize

def tallyOf (s : Snapshot) (target : Address) : Nat :=
  ((s.tally.find? target).map (·.votes)).getD 0

def uncount (tally : SortedMap Address Tally) (v : Vote) : SortedMap Address Tally :=
  match tally.find? v.target with
  | none => tally
  | some t =>
    if t.authorize = v.authorize then
      if 1 < t.votes then tally.insert v.target { t with votes := t.votes - 1 }
      else tally.erase v.target
    else tally

def withdraw (s : Snapshot) (signer target : Address) : Snapshot :=
  match s.votes.find? fun v => v.signer = signer ∧ v.target = target with
  | none => s
  | some old => { s with votes := s.votes.erase old, tally := uncount s.tally old }

def cast (s : Snapshot) (v : Vote) : Snapshot :=
  if s.isMeaningful v.target v.authorize then
    let tally :=
      match s.tally.find? v.target with
      | none => ⟨v.authorize, 1⟩
      | some t => { t with votes := t.votes + 1 }
    { s with votes := s.votes ++ [v], tally := s.tally.insert v.target tally }
  else s

def dropVotesOf (s : Snapshot) (signer : Address) : Snapshot :=
  { s with
    tally := (s.votes.filter (·.signer = signer)).foldl uncount s.tally
    votes := s.votes.filter (·.signer ≠ signer) }

def dropVotesOn (s : Snapshot) (target : Address) : Snapshot :=
  { s with votes := s.votes.filter (·.target ≠ target), tally := s.tally.erase target }

def settle (s : Snapshot) (target : Address) : Snapshot :=
  match s.tally.find? target with
  | none => s
  | some t =>
    if t.votes < s.committee.quorum then s
    else if t.authorize then
      { s with committee := (s.committee.add? target).getD s.committee }.dropVotesOn target
    else
      ({ s with committee := (s.committee.remove? target).getD s.committee }.dropVotesOf
        target).dropVotesOn target

def countVote (s : Snapshot) (v : Vote) : Snapshot :=
  ((s.withdraw v.signer v.target).cast v).settle v.target

variable [Scheme]

def isLinked : Height → Digest → List Header → Bool
  | _, _, [] => true
  | number, hash, h :: hs =>
    next? number == some h.number && h.parentHash == hash && isLinked h.number h.hash hs

def enter (s : Snapshot) (h : Header) : Snapshot :=
  if s.epoch.isCheckpoint h.number then { s with votes := [], tally := [] } else s

def applyHeader (s : Snapshot) (h : Header) : Except SnapshotFault Snapshot :=
  let s := { s.enter h with number := h.number, hash := h.hash }
  match h.author with
  | none => .error (.invalidSignature h.number)
  | some signer =>
    if !s.committee.contains signer then .error (.unauthorizedValidator signer)
    else
      match h.vote with
      | none => .ok s
      | some v =>
        if s.epoch.isCheckpoint h.number then .ok s
        else .ok (s.countVote ⟨signer, h.number, v.target, v.authorize⟩)

/-- Applies the headers that follow the snapshot's block, oldest first. -/
def apply (s : Snapshot) (headers : List Header) : Except SnapshotFault Snapshot :=
  if isLinked s.number s.hash headers then headers.foldlM applyHeader s
  else .error .invalidVotingChain

omit [Scheme] in
theorem enter_committee (s : Snapshot) (h : Header) : (s.enter h).committee = s.committee := by
  unfold enter
  split <;> rfl

def moveTo (s : Snapshot) (h : Header) : Snapshot := { s with number := h.number, hash := h.hash }

/-- A header is applied if a member is its author. A checkpoint discards what is pending, and any other
header has its vote counted, if it carries one. -/
theorem applyHeader_ok {s t : Snapshot} {h : Header} : s.applyHeader h = .ok t ↔
    ∃ author, h.author = some author ∧ s.committee.contains author = true ∧
      ((s.epoch.isCheckpoint h.number = true ∧ t = { s.moveTo h with votes := [], tally := [] }) ∨
        (s.epoch.isCheckpoint h.number = false ∧ h.vote = none ∧ t = s.moveTo h) ∨
        ∃ v, s.epoch.isCheckpoint h.number = false ∧ h.vote = some v ∧
          t = (s.moveTo h).countVote ⟨author, h.number, v.target, v.authorize⟩) := by
  cases ha : h.author with
  | none => simp [applyHeader, ha]
  | some author =>
    cases hm : s.committee.contains author with
    | false => simp [applyHeader, ha, enter_committee, hm]
    | true =>
      cases hc : s.epoch.isCheckpoint h.number <;> cases hv : h.vote <;>
        simp [applyHeader, enter, moveTo, ha, hm, hc, hv, eq_comm (a := t)]

end Snapshot

end BlockAgreement
