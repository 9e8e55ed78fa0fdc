import BlockAgreement.Backlog
import BlockAgreement.Gossip
import BlockAgreement.HeaderRules
import BlockAgreement.Notice
import BlockAgreement.RoundChanges
import BlockAgreement.Timer

/-!
# The state of a replica

A replica agrees with the others on one block per height. It is in one view at a time and goes through
the phases of that view; when a view fails it asks for a higher round and waits until enough others do.
What it shows to the outside is a list of effects.
-/

set_option autoImplicit false

namespace BlockAgreement

/-- The phases of a view, in their order. -/
inductive Phase where
  /-- No proposal yet. -/
  | newRound
  /-- A proposal is accepted and a Prepare sent for it. -/
  | preprepared
  /-- The proposal is locked and a Commit sent for it. -/
  | prepared
  /-- The proposal has a quorum of Commits. -/
  | committed
  deriving DecidableEq, Repr

namespace Phase

def rank : Phase → Nat
  | newRound => 0
  | preprepared => 1
  | prepared => 2
  | committed => 3

instance : ToString Phase :=
  ⟨fun
    | newRound => "NewRound"
    | preprepared => "Preprepared"
    | prepared => "Prepared"
    | committed => "Committed"⟩

instance : LT Phase := ⟨fun a b => a.rank < b.rank⟩

instance (a b : Phase) : Decidable (a < b) := inferInstanceAs (Decidable (a.rank < b.rank))

end Phase

/-- What a replica has seen in its view. -/
structure Attempt where
  view : View
  /-- The accepted proposal, or the one that came along with the lock. -/
  preprepare : Option Preprepare
  prepares : Poll
  commits : Poll
  /-- The hash of the only proposal that the replica still supports at this height. -/
  lock : Option Digest
  /-- The block that the replica would propose itself. -/
  request : Option Block

namespace Attempt

def start (view : View) (committee : Committee) : Attempt where
  view
  preprepare := none
  prepares := .empty view committee
  commits := .empty view committee
  lock := none
  request := none

def next (a : Attempt) (view : View) (committee : Committee) : Attempt :=
  { Attempt.start view committee with
    preprepare := if a.lock.isSome then a.preprepare else none
    lock := a.lock
    request := a.request }

def proposal (a : Attempt) : Option Block := a.preprepare.map (·.proposal)

variable [Scheme]

def subject (a : Attempt) : Option Subject := a.proposal.map fun b => ⟨a.view, b.hash⟩

def locked (a : Attempt) : Attempt :=
  match a.proposal with
  | none => a
  | some b => { a with lock := some b.hash }

omit [Scheme] in
/-- How many members have sent a Prepare or a Commit. -/
def supporters (a : Attempt) : Nat :=
  a.prepares.size + (a.commits.senders.filter fun s => !a.prepares.contains s).length

end Attempt

/-- Why a replica does not act on an input. -/
inductive Rejection where
  /-- The view is over. -/
  | oldMessage
  /-- The view or the phase has not come yet. -/
  | futureMessage
  /-- The round asked for has no quorum yet. The request is counted. -/
  | futureRound
  | inconsistentSubject
  | notFromProposer
  | invalidMessage
  | invalidProposal (fault : HeaderFault)
  | unauthorizedAddress
  | stoppedEngine
  | ledger (fault : LedgerFault)
  deriving DecidableEq, Repr

instance : ToString Rejection :=
  ⟨fun
    | .oldMessage => "OldMessage"
    | .futureMessage => "FutureMessage"
    | .futureRound => "FutureRound"
    | .inconsistentSubject => "InconsistentSubject"
    | .notFromProposer => "NotFromProposer"
    | .invalidMessage => "InvalidMessage"
    | .invalidProposal fault => s!"InvalidProposal({fault})"
    | .unauthorizedAddress => "UnauthorizedAddress"
    | .stoppedEngine => "StoppedEngine"
    | .ledger fault => s!"Chain({fault})"⟩

/-- What a replica shows to the outside. -/
inductive Effect where
  | notify (notice : Notice)
  | send (recipient : Address) (payload : Bytes)
  /-- The replica signed a message of its own and spread it. -/
  | broadcast (message : Message)
  /-- The replica handed a block to the ledger. -/
  | commit (block : Block)
  deriving DecidableEq, Repr

namespace Effect

def notices (es : List Effect) : List Notice :=
  es.filterMap fun | notify n => some n | _ => none

def sends (es : List Effect) : List (Address × Bytes) :=
  es.filterMap fun | send recipient payload => some (recipient, payload) | _ => none

def gather : List (Address × Bytes) → List (List Address × Bytes)
  | [] => []
  | (recipient, payload) :: rest =>
    match gather rest with
    | [] => [([recipient], payload)]
    | (others, next) :: groups =>
      if payload = next then (recipient :: others, next) :: groups
      else ([recipient], payload) :: (others, next) :: groups

end Effect

/-- A replica over a ledger of type `σ`. -/
structure Replica (σ : Type) where
  signer : Signer
  ledger : σ
  archive : Archive
  gossip : Gossip
  timer : Timer
  started : Bool
  phase : Phase
  /-- The replica has asked for its view and waits until a quorum does. -/
  waiting : Bool
  attempt : Option Attempt
  committee : Committee
  roundChanges : RoundChanges
  backlog : Backlog
  /-- The blocks that the replica would propose at later heights. -/
  held : SortedMap Height Block
  /-- The messages to process before the next input: the replica's own and replayed ones. -/
  ready : List Delivery
  /-- Newest first. -/
  effects : List Effect

namespace Replica

variable {σ : Type}

def view? (r : Replica σ) : Option View := r.attempt.map (·.view)

theorem view?_of_attempt {r : Replica σ} {a : Attempt} (ha : r.attempt = some a) :
    r.view? = some a.view := by
  simp [view?, ha]

def isProposer (r : Replica σ) : Bool := r.committee.isProposer r.signer.address

theorem isProposer_iff {r : Replica σ} :
    r.isProposer = true ↔ r.committee.proposer = some r.signer.address := beq_iff_eq

def isCurrentProposal [Scheme] (r : Replica σ) (hash : Digest) : Bool :=
  match r.attempt.bind (·.request) with
  | none => false
  | some b => b.hash == hash

theorem isCurrentProposal_iff [Scheme] {r : Replica σ} {d : Digest} :
    r.isCurrentProposal d = true ↔ ∃ a b, r.attempt = some a ∧ a.request = some b ∧ b.hash = d := by
  unfold isCurrentProposal
  cases ha : r.attempt with
  | none => simp
  | some a => cases hb : a.request <;> simp [hb]

def emit (r : Replica σ) (e : Effect) : Replica σ := { r with effects := e :: r.effects }

def notify (r : Replica σ) (n : Notice) : Replica σ := r.emit (.notify n)

def drop (r : Replica σ) (m : Message) (reason : Rejection) : Replica σ :=
  r.notify (.dropMessage m.sender m.kind (toString reason))

def flush (r : Replica σ) : List Effect × Replica σ := (r.effects.reverse, { r with effects := [] })

/-- A replica that has not started, with the committee after the head of the ledger. There is none after
a head with the last number of all: to count on from there overflows. -/
def create [Scheme] [Ledger σ] (signer : Signer) (ledger : σ) (archive : Archive) (gossip : Gossip)
    (timer : Timer) (backlogCapacity : Nat) : Except HeaderFault (Replica σ) :=
  let head := Ledger.head ledger
  match archive.snapshot ledger head.number head.hash with
  | (.error e, _) => .error (.snapshot e)
  | (.ok s, archive) =>
    match next? head.number with
    | none => .error .stoppedEngine
    | some sequence =>
      .ok
        { signer, ledger, archive, gossip, timer
          started := false
          phase := .newRound
          waiting := false
          attempt := none
          committee := s.committee
          roundChanges := .empty sequence s.committee
          backlog := .empty backlogCapacity
          held := []
          ready := []
          effects := [] }

theorem create_ok [Scheme] [Ledger σ] {signer : Signer} {ledger : σ} {archive : Archive} {gossip : Gossip}
    {timer : Timer} {capacity : Nat} {r : Replica σ}
    (h : create signer ledger archive gossip timer capacity = .ok r) : ∃ s found sequence,
      archive.snapshot ledger (Ledger.head ledger).number (Ledger.head ledger).hash = (.ok s, found) ∧
      next? (Ledger.head ledger).number = some sequence ∧
      r = ⟨signer, ledger, found, gossip, timer, false, .newRound, false, none, s.committee,
        .empty sequence s.committee, .empty capacity, [], [], []⟩ := by
  unfold create at h
  dsimp only at h
  split at h
  · cases h
  · rename_i s found hs
    split at h
    · cases h
    · rename_i sequence hn
      exact ⟨s, found, sequence, hs, hn, (Except.ok.inj h).symm⟩

end Replica

end BlockAgreement
