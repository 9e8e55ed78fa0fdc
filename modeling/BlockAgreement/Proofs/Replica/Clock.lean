import BlockAgreement.Proofs.Replica.Refusals
import BlockAgreement.Proofs.Replica.Shifts

/-!
# The round timer keeps up

Whatever makes a replica change its view arms the timer for the new one, and only stopping the replica
cancels the timer. So a replica that runs never waits in a view without a timeout to come, and the timeout
takes it on to a higher view.
-/

set_option autoImplicit false

namespace BlockAgreement

namespace Replica

variable {σ : Type} {r s t : Replica σ} {a b : Attempt} {view : View}

def clock (r : Replica σ) : Option View × Option View := (r.view?, r.timer.armed)

def Timed (r : Replica σ) (view : View) : Prop := r.clock = (some view, some view)

def Rearms (r s : Replica σ) : Prop := s.clock = r.clock ∨ ∃ view, s.Timed view

theorem Rearms.refl (r : Replica σ) : Rearms r r := .inl rfl

theorem Rearms.trans (hs : Rearms r s) (ht : Rearms s t) : Rearms r t := by
  rcases ht with ht | ht
  · rcases hs with hs | ⟨view, hs⟩
    · exact .inl (ht.trans hs)
    · exact .inr ⟨view, ht.trans hs⟩
  · exact .inr ht

theorem Rearms.timed (hs : Rearms r s) (hr : r.Timed view) : ∃ view, s.Timed view := by
  rcases hs with hs | hs
  · exact ⟨view, hs.trans hr⟩
  · exact hs

theorem Rearms.of_timed (hs : s.Timed view) : Rearms r s := .inr ⟨view, hs⟩

theorem Timed.current (h : r.Timed view) : r.view? = some view := congrArg Prod.fst h

theorem Timed.armed (h : r.Timed view) : r.timer.armed = some view := congrArg Prod.snd h

theorem arm_timed (hv : r.view? = some view) :
    ({ r with timer := r.timer.arm view } : Replica σ).Timed view :=
  Prod.ext hv rfl

theorem attempt_clock (ha : r.attempt = some a) (hv : b.view = a.view) :
    ({ r with attempt := some b } : Replica σ).clock = r.clock := by
  simp [clock, view?, ha, hv]

theorem catchUp_timed (r : Replica σ) (view : View) : (r.catchUp view).Timed view :=
  Prod.ext (catchUp_view r view) rfl

@[simp] theorem drop_clock (r : Replica σ) (m : Message) (reason : Rejection) :
    (r.drop m reason).clock = r.clock := rfl

theorem announceView_timed (hv : r.view? = some view) : (r.announceView view).Timed view :=
  arm_timed hv

@[simp] theorem replay_clock (r : Replica σ) : r.replay.clock = r.clock := by
  unfold replay
  split <;> rfl

theorem postpone_clock (r : Replica σ) (d : Delivery) : (r.postpone d).clock = r.clock := by
  unfold postpone
  split
  · rfl
  · split <;> rfl

theorem extendTime_rearms (r : Replica σ) (phase : Phase) : Rearms r (r.extendTime phase) := by
  unfold extendTime
  split
  · split
    · exact .refl r
    · exact .of_timed (arm_timed ‹_›)
  · exact .refl r

section Sending

variable [Scheme] {archive : Archive} {phase : Phase} {x : Block}

@[simp] theorem relay_clock (r : Replica σ) (payload : Bytes) : (r.relay payload).clock = r.clock := by
  obtain ⟨gossip, sends, he, -⟩ := relay_eq r payload
  rw [he]
  rfl

@[simp] theorem broadcast_clock (r : Replica σ) (m : Option Message) (notice : Notice) :
    (r.broadcast m notice).clock = r.clock := by
  cases m with
  | none => rfl
  | some c => exact relay_clock (r.emit (.broadcast c)) _

@[simp] theorem sendPreprepare_clock (r : Replica σ) (b : Block) :
    (r.sendPreprepare b).clock = r.clock := by
  unfold sendPreprepare
  split
  · rfl
  · split
    · simp
    · rfl

@[simp] theorem sendPrepare_clock (r : Replica σ) : r.sendPrepare.clock = r.clock := by
  unfold sendPrepare
  split <;> simp

@[simp] theorem sendCommitFor_clock (r : Replica σ) (s : Subject) :
    (r.sendCommitFor s).clock = r.clock := broadcast_clock r _ _

@[simp] theorem sendCommit_clock (r : Replica σ) : r.sendCommit.clock = r.clock := by
  unfold sendCommit
  split <;> simp

theorem handleRequest_clock (r : Replica σ) (b : Block) : (r.handleRequest b).clock = r.clock := by
  unfold handleRequest
  split
  · rfl
  · rename_i a ha
    have hrequest := attempt_clock (b := { a with request := some b }) ha rfl
    split
    · rfl
    · split
      · rfl
      · dsimp only
        split
        · rw [sendPreprepare_clock, hrequest]
        · exact hrequest

theorem takeHeld_clock (r : Replica σ) : r.takeHeld.clock = r.clock := by
  unfold takeHeld
  split
  · rfl
  · dsimp only
    split
    · rfl
    · exact handleRequest_clock _ _

theorem proposeAgain_clock (r : Replica σ) : r.proposeAgain.clock = r.clock := by
  unfold proposeAgain
  split
  · split <;> simp
  · rfl

theorem enterPhase_rearms (r : Replica σ) (phase : Phase) : Rearms r (r.enterPhase phase) := by
  have hphase : Rearms r { r.extendTime phase with phase } := extendTime_rearms r phase
  unfold enterPhase
  dsimp only
  split
  · exact hphase.trans (.inl ((replay_clock _).trans (takeHeld_clock _)))
  · exact hphase.trans (.inl (replay_clock _))

theorem sendRoundChange_timed {round : Round} (hv : r.view? = some view) (hr : view.round < round) :
    (r.sendRoundChange round).Timed ⟨view.sequence, round⟩ := by
  rw [sendRoundChange_eq hv hr, Timed, broadcast_clock]
  exact catchUp_timed r _

theorem sendRoundChange_rearms (r : Replica σ) (round : Round) : Rearms r (r.sendRoundChange round) := by
  cases hv : r.view? with
  | none => exact .inl (by simp [sendRoundChange, hv])
  | some view =>
    by_cases hr : view.round < round
    · exact .of_timed (sendRoundChange_timed hv hr)
    · exact .inl (by rw [sendRoundChange_of_not_lt hv hr])

theorem sendNextRoundChange_rearms (r : Replica σ) : Rearms r r.sendNextRoundChange := by
  unfold sendNextRoundChange
  split
  · exact .refl r
  · exact sendRoundChange_rearms r _

theorem voting_rearms (ha : r.attempt = some a) (hv : b.view = a.view) :
    Rearms r (r.voting archive b phase) := by
  have hattempt : ({ r with archive, attempt := some b } : Replica σ).clock = r.clock :=
    attempt_clock ha hv
  exact Rearms.trans (.inl hattempt) (enterPhase_rearms _ phase)

theorem finalized_rearms {ledger : σ} (ha : r.attempt = some a) (hv : b.view = a.view) :
    Rearms r (r.finalized b x ledger) := voting_rearms ha hv

theorem released_rearms (ha : r.attempt = some a) (hv : b.view = a.view) : Rearms r (r.released b x) := by
  have hdecided : Rearms r (r.decided b x) := voting_rearms ha hv
  exact hdecided.trans (.inl (attempt_clock (decided_attempt r b x) (by rfl)))

theorem changeRound_timed (r : Replica σ) (head : Header) (a : Attempt) (round : Round) :
    (r.changeRound head a round).Timed ⟨a.view.sequence, round⟩ := by
  obtain ⟨own, ho, -⟩ := beginPhase_keeps (r.entering head (a.next ⟨a.view.sequence, round⟩ r.committee))
  refine announceView_timed ?_
  have hclock := proposeAgain_clock (r.enterView head (a.next ⟨a.view.sequence, round⟩ r.committee))
  exact (congrArg Prod.fst hclock).trans ho.view

variable [Ledger σ]

theorem startSequence_timed (r : Replica σ) (head : Header) (sequence : Height) :
    (r.startSequence head sequence).Timed ⟨sequence, 0⟩ := by
  obtain ⟨own, ho, -⟩ := beginPhase_keeps ((r.refreshCommittee head).entering head
    (.start ⟨sequence, 0⟩ (r.refreshCommittee head).committee))
  exact announceView_timed ho.view

theorem startRound_rearms (r : Replica σ) (round : Round) : Rearms r (r.startRound round) := by
  refine startRound_induction r round (fun sequence _ _ => ?_) (fun a _ _ _ _ => ?_)
    (fun _ _ _ _ _ _ => .refl r) fun _ => .inl rfl
  · exact .of_timed (startSequence_timed r _ sequence)
  · exact .of_timed (changeRound_timed r _ a round)

theorem Treats.rearms {m : Message} {v : Except Rejection Unit} (h : r.Treats m v s) : Rearms r s := by
  have harchive (archive : Archive) : Rearms r { r with archive } := .inl rfl
  have hcounted (roundChanges : RoundChanges) : Rearms r { r with roundChanges } := .inl rfl
  cases h with
  | refuse => exact .refl r
  | consult => exact harchive _
  | answer => exact (harchive _).trans (.inl (sendCommitFor_clock _ _))
  | object => exact (harchive _).trans (sendNextRoundChange_rearms _)
  | accept hp => exact (voting_rearms hp.attempt (by rfl)).trans (.inl (sendPrepare_clock _))
  | support hp => exact (voting_rearms hp.attempt (by rfl)).trans (.inl (sendCommit_clock _))
  | countPrepare hc => exact .inl (attempt_clock hc.attempt (by rfl))
  | lock hc => exact (voting_rearms hc.attempt (by rfl)).trans (.inl (sendCommit_clock _))
  | countCommit hc => exact .inl (attempt_clock hc.attempt (by rfl))
  | finalize hc => exact (finalized_rearms hc.attempt (by rfl)).trans (startRound_rearms _ 0)
  | release hc => exact (released_rearms hc.attempt (by rfl)).trans (sendNextRoundChange_rearms _)
  | tally => exact hcounted _
  | join => exact (hcounted _).trans (sendRoundChange_rearms _ _)
  | enter => exact (hcounted _).trans (startRound_rearms _ _)

theorem receive_rearms (r : Replica σ) (d : Delivery) : Rearms r (r.receive d) := by
  refine receive_induction r d (process_treats r d.message).rearms (fun s hs => ?_) (fun s _ _ hs => ?_)
    fun s e hs => hs
  · exact hs.trans (.inl (relay_clock s _))
  · exact hs.trans (.inl (postpone_clock s d))

theorem handleTimeout_rearms (r : Replica σ) (view : View) : Rearms r (r.handleTimeout view) := by
  have htold : Rearms r (r.notify (.viewTimeout view)) := .inl rfl
  refine handleTimeout_induction r view (fun _ => .refl r) (fun round _ _ _ _ => ?_) (fun _ _ => ?_)
    fun _ _ _ => ?_
  · exact htold.trans (sendRoundChange_rearms _ round)
  · exact htold.trans (startRound_rearms _ 0)
  · exact htold.trans (sendNextRoundChange_rearms _)

theorem advance_rearms (h : r.advance = some s) : Rearms r s := by
  obtain ⟨d, ready, -, -, rfl⟩ := advance_eq_some h
  exact receive_rearms { r with ready } d

theorem settled_rearms (r : Replica σ) : Rearms r r.settled :=
  settle_keep (P := Rearms r) (fun _ _ hs ha => hs.trans (advance_rearms ha)) _ (.refl r)

/-- Only stopping the replica cancels the timer. -/
theorem react_rearms (r : Replica σ) {e : Event σ} (he : e ≠ .stop) : Rearms r (r.react e) := by
  cases e with
  | start =>
    unfold react
    dsimp only
    split
    · exact .refl r
    · exact startRound_rearms { r with started := true } 0
  | stop => exact absurd rfl he
  | input i =>
    unfold react
    dsimp only
    split
    · cases i with
      | request b => exact .inl (handleRequest_clock r b)
      | message d => exact receive_rearms r d
      | timeout view => exact handleTimeout_rearms r view
      | headMoved => exact startRound_rearms r 0
    · cases i with
      | message d => exact .inl (drop_clock r _ _)
      | _ => exact .refl r
  | process =>
    unfold react
    cases ha : r.advance with
    | none => exact .refl r
    | some s => exact advance_rearms ha
  | lookup number hash => exact .inl rfl
  | replace ledger => exact .inl rfl

end Sending

section Runs

variable [Scheme] [Ledger σ] {start : Replica σ} {h : List (Moment σ)}

/-- The timer runs for the view of the replica, unless the replica has been stopped there. -/
theorem Run.timed (hn : start.view? = none) (hr : Run start h r) (hv : r.view? = some view)
    (hstop : ∀ m ∈ h, m.event = .stop → m.before.view? ≠ some view) : r.Timed view := by
  induction hr with
  | nil =>
    rw [hn] at hv
    cases hv
  | @step h r e _ ih =>
    rw [List.forall_mem_cons] at hstop
    have he : e ≠ .stop := by
      rintro rfl
      exact hstop.1 rfl hv
    rcases react_rearms r he with hclock | ⟨later, hlater⟩
    · have hview : r.view? = some view := (congrArg Prod.fst hclock).symm.trans hv
      exact hclock.trans (ih hview hstop.2)
    · obtain rfl := Option.some.inj (hlater.current.symm.trans hv)
      exact hlater

theorem create_started {signer : Signer} {ledger : σ} {archive : Archive}
    {gossip : Gossip} {timer : Timer} {capacity : Nat}
    (hc : create signer ledger archive gossip timer capacity = .ok r) : r.started = false := by
  obtain ⟨_, _, _, -, -, rfl⟩ := create_ok hc
  rfl

theorem Moment.view_ne_none {m : Moment σ} (hv : m.before.view? ≠ none) : m.after.view? ≠ none := by
  obtain ⟨view, hview⟩ := Option.ne_none_iff_exists'.mp hv
  intro hnone
  have hle := m.advances.le
  rw [progress_eq hview, show m.after.progress = ⊥ by simp [progress, hnone], le_bot_iff] at hle
  exact WithBot.coe_ne_bot hle

/-- A replica that runs is in a view. -/
theorem Run.view_ne_none (hn : start.started = false) (hr : Run start h r) (hs : r.started = true) :
    r.view? ≠ none := by
  induction hr with
  | nil =>
    rw [hn] at hs
    cases hs
  | @step h r e _ ih =>
    by_cases hv : r.view? = none
    · have hstopped : r.started = false := Bool.eq_false_iff.mpr fun hs => ih hs hv
      obtain ⟨rfl, hnext⟩ := (react_runs hs).resolve_left (by rw [hstopped]; exact Bool.false_ne_true)
      obtain ⟨sequence, hnext⟩ := Option.ne_none_iff_exists'.mp hnext
      have ha : r.attempt = none := by simpa [view?] using hv
      simp only [react, hstopped, Bool.false_eq_true, if_false, startRound, hnext, ha,
        (startSequence_timed _ _ _).current]
      exact Option.some_ne_none _
    · exact Moment.view_ne_none (m := ⟨r, e⟩) hv

theorem Timed.settled {old : View} (hr : r.Timed view) (hlt : old < view) :
    ∃ later, old < later ∧ r.settled.Timed later := by
  obtain ⟨later, hlater⟩ := (settled_rearms r).timed hr
  obtain ⟨h, hrun, -⟩ := settle_run r.settleLimit r
  have hle : r.progress ≤ r.settled.progress := hrun.advances.le
  rw [progress_eq hr.current, progress_eq hlater.current, WithBot.coe_le_coe] at hle
  have hold := (Progress.of_lt_of (i := 4).mpr (.inl hlt)).trans_le hle
  refine ⟨later, (Progress.of_lt_of.mp hold).resolve_right fun h => ?_, hlater⟩
  exact absurd h.2 (Nat.not_lt.mpr r.settled.offset_le)

/-- The timeout of its view takes a replica to a higher view, for which the timer runs then, or there is
no height to go on to and it is the end of the replica. -/
theorem handleTimeout_timed (hv : r.view? = some view) (hround : next? view.round ≠ none) :
    (∃ later, view < later ∧ (r.handleTimeout view).Timed later) ∨
      next? (Ledger.head r.ledger).number = none ∧ (r.handleTimeout view).started = false := by
  have hnotified : (r.notify (.viewTimeout view)).view? = some view := hv
  have hasks {round : Round} (hlt : view.round < round) :
      ∃ later, view < later ∧ ((r.notify (.viewTimeout view)).sendRoundChange round).Timed later :=
    ⟨⟨view.sequence, round⟩, View.lt_iff.mpr (.inr ⟨rfl, hlt⟩), sendRoundChange_timed hnotified hlt⟩
  refine handleTimeout_induction (P := fun s => (∃ later, view < later ∧ s.Timed later) ∨
      next? (Ledger.head r.ledger).number = none ∧ s.started = false) r view
    (fun hother => absurd hv hother) (fun round _ _ hlt _ => .inl (hasks hlt)) (fun _ hle => ?_)
    fun _ _ _ => .inl ?_
  · refine startRound_induction (P := fun s => (∃ later, view < later ∧ s.Timed later) ∨
        next? (Ledger.head r.ledger).number = none ∧ s.started = false) _ 0
      (fun sequence hn _ => .inl ?_) (fun _ _ _ h0 => absurd rfl h0)
      (fun sequence current hn hcurrent hgt _ => ?_) fun hnone => .inr ⟨hnone, rfl⟩
    · have hlt : view.sequence < sequence := UInt64.lt_of_le_of_lt hle (lt_of_next? hn)
      exact ⟨⟨sequence, 0⟩, View.lt_iff.mpr (.inl hlt), startSequence_timed _ _ _⟩
    · obtain rfl := Option.some.inj (hnotified.symm.trans hcurrent)
      exact absurd hle hgt
  · obtain ⟨round, hnext⟩ := Option.ne_none_iff_exists'.mp hround
    simp only [sendNextRoundChange, hnotified, Option.bind_some, hnext]
    exact hasks (lt_of_next? hnext)

/-- The timer of a replica is never lost. Unless the replica has been stopped in its view, the timer
runs for that view, and a replica that runs is in some view. Between two events, the timeout of any
other view changes nothing; that of its own view takes the replica to a higher one, for which the timer
runs then. Only where the head has the last number of all, and nothing can follow, it may be the end of
the replica. -/
theorem timer_never_lost {signer : Signer} {ledger : σ} {archive : Archive} {gossip : Gossip}
    {timer : Timer} {capacity : Nat}
    (hc : create signer ledger archive gossip timer capacity = .ok start) (hr : Run start h r) :
    (∀ view, r.view? = some view →
      (∀ m ∈ h, m.event = .stop → m.before.view? ≠ some view) → r.timer.armed = some view) ∧
    (r.started = true → r.view? ≠ none) ∧
    (∀ view, r.ready = [] → r.view? ≠ some view → r.handle (.timeout view) = r) ∧
    ∀ view, r.started = true → r.view? = some view → next? view.round ≠ none →
      (∃ later, view < later ∧ (r.handle (.timeout view)).view? = some later ∧
        (r.handle (.timeout view)).timer.armed = some later) ∨
      next? (Ledger.head r.ledger).number = none ∧ (r.handle (.timeout view)).started = false := by
  obtain ⟨-, -, -, -, -, hn, -, -, -⟩ := create_spec hc
  have hview : start.view? = none := by simp [view?, hn]
  refine ⟨?_, ?_, ?_, ?_⟩
  · intro view hv hstop
    exact (hr.timed hview hv hstop).armed
  · exact hr.view_ne_none (create_started hc)
  · intro view hready hv
    unfold handle
    split
    · simp only [dispatch, handleTimeout, if_neg hv]
      exact settled_eq hready
    · rfl
  · intro view hs hv hround
    simp only [handle, hs, if_true, dispatch]
    rcases handleTimeout_timed hv hround with ⟨mid, hlt, hmid⟩ | ⟨hnone, hended⟩
    · obtain ⟨later, hlater, htimed⟩ := hmid.settled hlt
      exact .inl ⟨later, hlater, htimed.current, htimed.armed⟩
    · exact .inr ⟨hnone, (settled_of_stopped hended).symm ▸ hended⟩

end Runs

end Replica

namespace Pair

open Replica

attribute [local instance] Scheme.plain

def lateEvents : List (Event MemoryLedger) := [.start, .input (.timeout ⟨1, 0⟩), .process]

/-- The timer of round 1 runs then. It does not matter any more that round 0 is over, and when round 1 is
over too, the validator goes on to a higher view. -/
theorem timer_never_lost_late : ∃ start, replica first = .ok start ∧
    (lateEvents.foldl react start).timer.armed = some ⟨1, 1⟩ ∧
    (lateEvents.foldl react start).handle (.timeout ⟨1, 0⟩) = lateEvents.foldl react start ∧
    ∃ later, ⟨1, 1⟩ < later ∧
      ((lateEvents.foldl react start).handle (.timeout ⟨1, 1⟩)).view? = some later ∧
      ((lateEvents.foldl react start).handle (.timeout ⟨1, 1⟩)).timer.armed = some later := by
  obtain ⟨start, hc, hs, hv, hready, hhead⟩ := exists_replica (k := first) (P := fun start =>
    (lateEvents.foldl react start).started = true ∧
    (lateEvents.foldl react start).view? = some ⟨1, 1⟩ ∧
    (lateEvents.foldl react start).ready.isEmpty = true ∧
    next? (Ledger.head (lateEvents.foldl react start).ledger).number ≠ none) (by decide +kernel)
  have hstop : ∀ m ∈ start.moments lateEvents, m.event = .stop → m.before.view? ≠ some ⟨1, 1⟩ := by
    intro m hm he
    have hmem := event_of_mem_moments hm
    rw [he] at hmem
    simp [lateEvents] at hmem
  obtain ⟨harmed, -, hother, hown⟩ := timer_never_lost hc (moments_run start lateEvents)
  refine ⟨start, hc, harmed _ hv hstop, hother _ (List.isEmpty_iff.mp hready) ?_,
    (hown _ hs hv (by decide)).resolve_right fun h => hhead h.1⟩
  rw [hv]
  decide

end Pair

end BlockAgreement
