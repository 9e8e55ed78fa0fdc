import BlockAgreement.Inbox
import BlockAgreement.Replica.Views

/-!
# What a replica does with a message

A message is verified, its sender has to be a member, and its view has to be the current one; then each
kind has its own rule. Messages that come too early wait in the backlog, accepted ones are relayed, and
all others are dropped.
-/

set_option autoImplicit false

namespace BlockAgreement.Replica

variable {σ : Type} [Scheme] [Ledger σ]

omit [Scheme] [Ledger σ] in
def checkMessage (r : Replica σ) (kind : MessageKind) (view : View) : Except Rejection Unit :=
  match r.view? with
  | none => .error .stoppedEngine
  | some current => checkView current r.waiting r.phase kind view

/-- A proposal has to extend the head at the current height and to be valid. -/
def verifyProposal (r : Replica σ) (b : Block) : Except HeaderFault Unit × Replica σ :=
  match r.view? with
  | none => (.error .stoppedEngine, r)
  | some view =>
    if b.number = view.sequence ∧ b.header.parentHash = (Ledger.head r.ledger).hash then
      let (result, archive) := HeaderRules.verifyProposal r.ledger r.archive b
      (result, { r with archive })
    else (.error .unknownAncestor, r)

def isCommittedProposal (r : Replica σ) (m : Message) (p : Preprepare) : Bool × Replica σ :=
  let b := p.proposal
  match Ledger.headerOf? r.ledger b.hash with
  | none => (false, r)
  | some h =>
    if h.number ≠ b.number then (false, r)
    else
      match r.archive.parentSnapshot r.ledger b.number b.header.parentHash with
      | (.error _, archive) => (false, { r with archive })
      | (.ok s, archive) =>
        let parent := (previous? b.number).bind fun n =>
          if n = 0 then none else Ledger.headerAt? r.ledger n
        let committee := s.committee.choose (parent.bind (·.author)) p.view.round
        (committee.isProposer m.sender, { r with archive })

omit [Ledger σ] in
/-- Takes a valid proposal of the current view: a replica that is locked supports it only if it is the
locked one. -/
def acceptProposal (r : Replica σ) (p : Preprepare) : Replica σ :=
  match r.attempt with
  | none => r
  | some a =>
    let accepted := { r with attempt := some { a with preprepare := some p } }
    match a.lock with
    | none => (accepted.enterPhase .preprepared).sendPrepare
    | some lock =>
      if lock = p.proposal.hash then (accepted.enterPhase .prepared).sendCommit
      else r.sendNextRoundChange

def handlePreprepare (r : Replica σ) (m : Message) : Except Rejection Unit × Replica σ :=
  match m.preprepare with
  | .error _ => (.error .invalidMessage, r)
  | .ok p =>
    match r.checkMessage .preprepare p.view with
    | .error .oldMessage =>
      match r.isCommittedProposal m p with
      | (true, r) => (.ok (), r.sendCommitFor ⟨p.view, p.proposal.hash⟩)
      | (false, r) => (.error .oldMessage, r)
    | .error e => (.error e, r)
    | .ok () =>
      if !r.committee.isProposer m.sender then (.error .notFromProposer, r)
      else
        match r.verifyProposal p.proposal with
        | (.error e, r) => (.error (.invalidProposal e), r.sendNextRoundChange)
        | (.ok (), r) => (.ok (), if r.phase = .newRound then r.acceptProposal p else r)

omit [Ledger σ] in
def checkSubject (r : Replica σ) (m : Message) : Except Rejection Subject :=
  match m.subject with
  | .error _ => .error .invalidMessage
  | .ok s => do
    r.checkMessage m.kind s.view
    if r.attempt.bind (·.subject) = some s then return s else .error .inconsistentSubject

omit [Ledger σ] in
def lockAndCommit (r : Replica σ) (a : Attempt) : Replica σ :=
  ({ r with attempt := some a.locked }.enterPhase .prepared).sendCommit

omit [Ledger σ] in
def handlePrepare (r : Replica σ) (m : Message) : Except Rejection Unit × Replica σ :=
  match r.checkSubject m, r.attempt with
  | .error e, _ => (.error e, r)
  | .ok _, none => (.error .stoppedEngine, r)
  | .ok s, some a =>
    match a.prepares.add m with
    | .error _ => (.error .unauthorizedAddress, r)
    | .ok prepares =>
      let a := { a with prepares }
      let r := { r with attempt := some a }
      if (a.lock = some s.digest ∨ r.committee.quorum ≤ a.supporters) ∧ r.phase < .prepared then
        (.ok (), r.lockAndCommit a)
      else (.ok (), r)

/-- Hands the proposal with its committed seals to the ledger and goes on to the next height. If the
ledger refuses, the lock is released and the replica asks for the next round. -/
def commit (r : Replica σ) : Except Rejection Unit × Replica σ :=
  let r := r.enterPhase .committed
  match r.attempt with
  | none => (.error .stoppedEngine, r)
  | some a =>
    match a.proposal with
    | none => (.ok (), r)
    | some b =>
      let seals := a.commits.messages.filterMap (·.committedSeal)
      let b := { b with header := { b.header with extra := { b.header.extra with
        committedSeals := seals } } }
      let r := r.emit (.commit b)
      match Ledger.append r.ledger b with
      | .error e =>
        (.error (.ledger e), { r with attempt := some { a with lock := none } }.sendNextRoundChange)
      | .ok ledger =>
        let r := { r with ledger }.notify (.finalCommitted b.hash b.number seals.length)
        (.ok (), r.startRound 0)

def handleCommit (r : Replica σ) (m : Message) : Except Rejection Unit × Replica σ :=
  match r.checkSubject m, r.attempt with
  | .error e, _ => (.error e, r)
  | .ok _, none => (.error .stoppedEngine, r)
  | .ok s, some a =>
    match m.verifyCommittedSeal s.digest, a.commits.add m with
    | .error _, _ => (.error .invalidMessage, r)
    | .ok _, .error _ => (.error .unauthorizedAddress, r)
    | .ok _, .ok commits =>
      let a := { a with commits }
      if r.committee.quorum ≤ commits.size ∧ r.phase < .committed then
        { r with attempt := some a.locked }.commit
      else (.ok (), { r with attempt := some a })

/-- A quorum of requests starts the round. While the replica waits, one more request than members may
be faulty makes it ask for that round too. -/
def handleRoundChange (r : Replica σ) (m : Message) : Except Rejection Unit × Replica σ :=
  match m.subject, r.view? with
  | .error _, _ => (.error .invalidMessage, r)
  | .ok _, none => (.error .stoppedEngine, r)
  | .ok s, some current =>
    match r.checkMessage .roundChange s.view with
    | .error e => (.error e, r)
    | .ok () =>
      let round := s.view.round
      if (next? round).isNone then (.error .invalidMessage, r)
      else
        match r.roundChanges.add round m with
        | (.error _, roundChanges) => (.error .unauthorizedAddress, { r with roundChanges })
        | (.ok count, roundChanges) =>
          let r := { r with roundChanges }
          if count = r.committee.quorum ∧ (r.waiting ∨ current.round < round) then
            (.ok (), r.startRound round)
          else if r.waiting ∧ count = r.committee.faults + 1 then (.ok (), r.sendRoundChange round)
          else if current.round < round then (.error .futureRound, r)
          else (.ok (), r)

def process (r : Replica σ) (m : Message) : Except Rejection Unit × Replica σ :=
  match m.verify with
  | .error _ => (.error .invalidMessage, r)
  | .ok () =>
    if !r.committee.contains m.sender then (.error .unauthorizedAddress, r)
    else
      match m.kind with
      | .preprepare => r.handlePreprepare m
      | .prepare => r.handlePrepare m
      | .commit => r.handleCommit m
      | .roundChange => r.handleRoundChange m

omit [Scheme] [Ledger σ] in
def postpone (r : Replica σ) (d : Delivery) : Replica σ :=
  match d.message.view with
  | .error _ => r.drop d.message .futureMessage
  | .ok view =>
    match r.backlog.insert view d with
    | (true, backlog) => { r with backlog }
    | (false, _) => r.drop d.message .futureMessage

/-- Processes a message and then relays, keeps or drops it. The replica's own messages are not relayed,
having been sent already, and not kept. -/
def receive (r : Replica σ) (d : Delivery) : Replica σ :=
  let own := decide (d.message.sender = r.signer.address)
  match r.process d.message with
  | (.ok (), r) => if own then r else r.relay d.payload
  | (.error .futureMessage, r) => if own then r.drop d.message .futureMessage else r.postpone d
  | (.error e, r) => r.drop d.message e

/-- What holds of a replica that has processed a message, and of what comes of it where the message is
relayed, kept or reported as dropped, holds of one that has received the message. -/
theorem receive_induction {P : Replica σ → Prop} (r : Replica σ) (d : Delivery)
    (processed : P (r.process d.message).2) (relayed : ∀ s, P s → P (s.relay d.payload))
    (kept : ∀ s, r.process d.message = (.error .futureMessage, s) →
      d.message.sender ≠ r.signer.address → P s → P (s.postpone d))
    (dropped : ∀ s e, P s → P (s.drop d.message e)) : P (r.receive d) := by
  unfold receive
  dsimp only
  split
  · rename_i s hs
    rw [hs] at processed
    split
    · exact processed
    · exact relayed s processed
  · rename_i s hs
    rw [hs] at processed
    split
    · exact dropped s _ processed
    · rename_i hother
      exact kept s hs (by simpa using hother) processed
  · rename_i s _ hs
    rw [hs] at processed
    exact dropped s _ processed

def dispatch (r : Replica σ) : Input → Replica σ
  | .request b => r.handleRequest b
  | .message d => r.receive d
  | .timeout view => r.handleTimeout view
  | .headMoved => r.startRound 0

def advance (r : Replica σ) : Option (Replica σ) :=
  match r.started, r.ready with
  | true, d :: ready => some ({ r with ready }.receive d)
  | _, _ => none

def settle : Nat → Replica σ → Replica σ
  | 0, r => r
  | steps + 1, r =>
    match r.advance with
    | none => r
    | some r => settle steps r

omit [Scheme] [Ledger σ] in
/-- As many messages as can become ready before a replica settles. A message that does not take the
replica to a later view or phase leaves less to process: at most an old Preprepare is answered with a
Commit. There are fewer than `2 ^ 131` views and phases, and to enter one makes ready at most what is in
the backlog and two messages of the replica's own. -/
def settleLimit (r : Replica σ) : Nat :=
  let stages := Nat.pow 2 131
  stages * (2 * (r.ready.length + r.backlog.toList.length) + 4 * stages)

def settled (r : Replica σ) : Replica σ := settle r.settleLimit r

/-- Handles one input and every message that becomes ready by it. A stopped replica drops messages and
ignores everything else. -/
def handle (r : Replica σ) (i : Input) : Replica σ :=
  if r.started then (r.dispatch i).settled
  else
    match i with
    | .message d => r.drop d.message .stoppedEngine
    | _ => r

def start (r : Replica σ) : Replica σ :=
  if r.started then r else ({ r with started := true }.startRound 0).settled

omit [Scheme] [Ledger σ] in
def stop (r : Replica σ) : Replica σ :=
  { r with started := false, timer := r.timer.stop, ready := [] }

end BlockAgreement.Replica
