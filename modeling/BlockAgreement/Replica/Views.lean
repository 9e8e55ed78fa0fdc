import BlockAgreement.Replica.Outbound

/-!
# How a replica moves from view to view

Entering a round takes up the committee after the head of the ledger if the height is new, keeps the
lock if it is not, and replays the backlog. The proposer of a later round proposes the locked block
again, or else its own.
-/

set_option autoImplicit false

namespace BlockAgreement

/-- Whether a message of this kind for `view` can be processed in the current view and phase. A
RoundChange only has to be for this sequence and not below the current view; everything else waits
for its view, and while the replica waits, and Prepares and Commits wait for the proposal. -/
def checkView (current : View) (waiting : Bool) (phase : Phase) (kind : MessageKind) (view : View) :
    Except Rejection Unit :=
  if kind = .roundChange then
    if current.sequence < view.sequence then .error .futureMessage
    else if view < current then .error .oldMessage
    else .ok ()
  else if current < view then .error .futureMessage
  else if view < current then .error .oldMessage
  else if waiting then .error .futureMessage
  else if phase = .newRound ∧ kind ≠ .preprepare then .error .futureMessage
  else .ok ()

def disposition (current : View) (waiting : Bool) (phase : Phase) (view : View) (kind : MessageKind) :
    Disposition :=
  match checkView current waiting phase kind view with
  | .ok () => .process
  | .error .futureMessage => .keep
  | .error _ => .discard

namespace Replica

variable {σ : Type} [Scheme]

def handleRequest (r : Replica σ) (b : Block) : Replica σ :=
  match r.attempt with
  | none => r
  | some a =>
    if a.view.sequence < b.number then { r with held := r.held.insert b.number b }
    else if b.number < a.view.sequence then r
    else
      let r := { r with attempt := some { a with request := some b } }
      if r.phase = .newRound then r.sendPreprepare b else r

def takeHeld (r : Replica σ) : Replica σ :=
  match r.view? with
  | none => r
  | some view =>
    let held := r.held.filter fun (height, _) => decide (view.sequence ≤ height)
    let r := { r with held := SortedMap.erase held view.sequence }
    match SortedMap.find? held view.sequence with
    | none => r
    | some b => r.handleRequest b

omit [Scheme] in
def replay (r : Replica σ) : Replica σ :=
  match r.view? with
  | none => r
  | some view =>
    let (ready, backlog) := r.backlog.drain (disposition view r.waiting r.phase)
    { r with backlog, ready := r.ready ++ ready }

omit [Scheme] in
def extendTime (r : Replica σ) (phase : Phase) : Replica σ :=
  if r.phase < phase ∧ phase < .committed then
    match r.view? with
    | none => r
    | some view => { r with timer := r.timer.arm view }
  else r

def enterPhase (r : Replica σ) (phase : Phase) : Replica σ :=
  let r := { r.extendTime phase with phase }
  let r := if phase = .newRound then r.takeHeld else r
  r.replay

variable [Ledger σ]

def refreshCommittee (r : Replica σ) (head : Header) : Replica σ :=
  match r.archive.snapshot r.ledger head.number head.hash with
  | (.error _, archive) => { r with archive }
  | (.ok s, archive) =>
    let r := { r with archive }
    let r :=
      if s.committee.members = r.committee.members then r
      else r.notify (.updateValidatorSet head.number s.committee.members)
    { r with committee := s.committee }

/-- The author of the head, on whom the choice of the proposer depends. The genesis block has none. -/
def lastProposer (head : Header) : Option Address := if head.number = 0 then none else head.author

omit [Ledger σ] in
def enterView (r : Replica σ) (head : Header) (a : Attempt) : Replica σ :=
  { r with
    roundChanges := .empty a.view.sequence r.committee
    attempt := some a
    committee := r.committee.choose (lastProposer head) a.view.round
    waiting := false }.enterPhase .newRound

omit [Ledger σ] in
def proposeAgain (r : Replica σ) : Replica σ :=
  if r.isProposer then
    match r.attempt.bind fun a => if a.lock.isSome then a.proposal else a.request with
    | none => r
    | some b => r.sendPreprepare b
  else r

omit [Scheme] [Ledger σ] in
def announceView (r : Replica σ) (view : View) : Replica σ :=
  { r with timer := r.timer.arm view }.notify
    (.startRound view r.committee.proposer (r.timer.timeout view.round))

def startSequence (r : Replica σ) (head : Header) (sequence : Height) : Replica σ :=
  let r := r.refreshCommittee head
  let view : View := ⟨sequence, 0⟩
  (r.enterView head (.start view r.committee)).announceView view

omit [Ledger σ] in
def changeRound (r : Replica σ) (head : Header) (a : Attempt) (round : Round) : Replica σ :=
  let view : View := ⟨a.view.sequence, round⟩
  (r.enterView head (a.next view r.committee)).proposeAgain.announceView view

/-- Enters the given round, or round 0 of the height after the head if the head has caught up with the
replica. Round 0 of a height is not entered twice, nor is a lower round. After a head with the last
number of all there is no height: the sum overflows, which ends the replica in the view where it is. -/
def startRound (r : Replica σ) (round : Round) : Replica σ :=
  let head := Ledger.head r.ledger
  match next? head.number with
  | none => { r with started := false }
  | some sequence =>
    match r.attempt with
    | none => r.startSequence head sequence
    | some a =>
      if a.view.sequence ≤ head.number then r.startSequence head sequence
      else if sequence = a.view.sequence ∧ round ≠ 0 ∧ ¬ round < a.view.round then
        r.changeRound head a round
      else r

/-- A replica that is to start a round goes on to the height after the head, or it changes to that round
of its own height, or there is no height after the head and it stops. What holds then, and where nothing
of it is possible, holds in the end. -/
theorem startRound_induction {P : Replica σ → Prop} (r : Replica σ) (round : Round)
    (later : ∀ sequence, next? (Ledger.head r.ledger).number = some sequence →
      (∀ view ∈ r.view?, view.sequence ≤ (Ledger.head r.ledger).number) →
      P (r.startSequence (Ledger.head r.ledger) sequence))
    (changed : ∀ a, r.attempt = some a →
      next? (Ledger.head r.ledger).number = some a.view.sequence → round ≠ 0 → ¬ round < a.view.round →
      P (r.changeRound (Ledger.head r.ledger) a round))
    (stayed : ∀ sequence view, next? (Ledger.head r.ledger).number = some sequence → r.view? = some view →
      ¬ view.sequence ≤ (Ledger.head r.ledger).number →
      (sequence = view.sequence → round = 0 ∨ round < view.round) → P r)
    (ended : next? (Ledger.head r.ledger).number = none → P { r with started := false }) :
    P (r.startRound round) := by
  unfold startRound
  dsimp only
  split
  · exact ended ‹_›
  · rename_i sequence hn
    split
    · rename_i ha
      exact later sequence hn (by simp [view?, ha])
    · rename_i a ha
      have hview := view?_of_attempt ha
      split
      · rename_i hle
        refine later sequence hn fun view hv => ?_
        obtain rfl := Option.some.inj (hview.symm.trans hv)
        exact hle
      · rename_i hgt
        split
        · rename_i hround
          obtain ⟨rfl, h0, hbelow⟩ := hround
          exact changed a ha hn h0 hbelow
        · rename_i hround
          refine stayed sequence a.view hn hview hgt fun hsame => ?_
          by_cases h0 : round = 0
          · exact .inl h0
          · exact .inr (Decidable.byContradiction fun hbelow => hround ⟨hsame, h0, hbelow⟩)

/-- The time of a view is up: the replica asks for the highest round that more than the tolerated number
of faulty members ask for, or else for the next one. -/
def handleTimeout (r : Replica σ) (view : View) : Replica σ :=
  if r.view? = some view then
    let r := r.notify (.viewTimeout view)
    let join := if r.waiting then none else r.roundChanges.maxRound? (r.committee.faults + 1)
    match join.filter (view.round < ·) with
    | some round => r.sendRoundChange round
    | none =>
      if view.sequence ≤ (Ledger.head r.ledger).number then r.startRound 0
      else r.sendNextRoundChange
  else r

/-- When its time is up a replica asks for a round, or starts the next height if the head has moved. What
holds then, and if the time of another view is up, holds in the end. -/
theorem handleTimeout_induction {P : Replica σ → Prop} (r : Replica σ) (view : View)
    (ignored : r.view? ≠ some view → P r)
    (joined : ∀ round, r.view? = some view → r.waiting = false → view.round < round →
      r.roundChanges.maxRound? (r.committee.faults + 1) = some round →
      P ((r.notify (.viewTimeout view)).sendRoundChange round))
    (moved : r.view? = some view → view.sequence ≤ (Ledger.head r.ledger).number →
      P ((r.notify (.viewTimeout view)).startRound 0))
    (asked : r.view? = some view → ¬ view.sequence ≤ (Ledger.head r.ledger).number →
      (r.waiting = false → ∀ round, r.roundChanges.maxRound? (r.committee.faults + 1) = some round →
        ¬ view.round < round) →
      P (r.notify (.viewTimeout view)).sendNextRoundChange) : P (r.handleTimeout view) := by
  unfold handleTimeout
  split
  · rename_i hv
    dsimp only
    split
    · rename_i round hjoin
      obtain ⟨hjoin, hlt⟩ := Option.filter_eq_some_iff.mp hjoin
      split at hjoin
      · cases hjoin
      · rename_i hw
        exact joined round hv (Bool.eq_false_iff.mpr hw) (of_decide_eq_true hlt) hjoin
    · rename_i hjoin
      split
      · exact moved hv ‹_›
      · refine asked hv ‹_› fun hw round hround hlt => ?_
        have hw : (r.notify (.viewTimeout view)).waiting = false := hw
        have hround : (r.notify (.viewTimeout view)).roundChanges.maxRound?
          ((r.notify (.viewTimeout view)).committee.faults + 1) = some round := hround
        rw [hw, if_neg Bool.false_ne_true, hround, Option.filter_some, decide_eq_true hlt] at hjoin
        cases hjoin
  · exact ignored ‹_›

end Replica

end BlockAgreement
