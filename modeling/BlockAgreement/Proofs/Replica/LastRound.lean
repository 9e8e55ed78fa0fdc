import BlockAgreement.Proofs.Replica.Following
import BlockAgreement.Proofs.Replica.Proposals

/-!
# The last round

A round without a successor could never be timed out of. No request for it is counted, so that it is
neither entered nor joined. But a replica that gives up the round before it asks for it all the same,
and then waits there for a block of its height that others have decided on.
-/

set_option autoImplicit false

namespace BlockAgreement

def Message.LeavesRoom [Scheme] (m : Message) : Prop := ∀ view, m.Requests view → next? view.round ≠ none

namespace Replica

variable {σ : Type} [Scheme] [Ledger σ] {start r s : Replica σ} {h : List (Moment σ)} {view : View}
  {m : Message}

theorem process_last (r : Replica σ) (hm : m.Requests view) (hn : next? view.round = none) :
    ∃ e, r.process m = (.error e, r) := by
  obtain ⟨digest, hs⟩ := hm.subject
  simp only [process, hm.verified, hm.kind, handleRoundChange, hs]
  split
  · exact ⟨_, rfl⟩
  · cases r.view? with
    | none => exact ⟨_, rfl⟩
    | some current =>
      dsimp only
      split
      · exact ⟨_, rfl⟩
      · simp [hn]

theorem receive_last (r : Replica σ) {d : Delivery} (hm : d.message.Requests view)
    (hn : next? view.round = none) : Quiet r (r.receive d) := by
  obtain ⟨e, he⟩ := process_last r hm hn
  refine receive_induction (P := Quiet r) r d ?_ (fun s hs => ?_) (fun s _ _ hs => ?_) fun s e hs => ?_
  · rw [he]
    exact .refl r
  · exact hs.trans (relay_quiet s _)
  · exact hs.trans (postpone_quiet s d)
  · exact hs.trans (drop_quiet s _ e)

/-- A replica that is asked for the last round does not move. -/
theorem Moment.leavesRoom_or (m : Moment σ) :
    (∀ c ∈ m.heard, c.LeavesRoom) ∨ Quiet m.before m.after := by
  refine or_iff_not_imp_left.mpr fun hheard => ?_
  unfold Message.LeavesRoom at hheard
  push Not at hheard
  obtain ⟨c, hc, view, hrequest, hn⟩ := hheard
  obtain ⟨d, ready, rfl, hafter⟩ := Moment.receives hc
  have hready : Quiet m.before { m.before with ready } := quiet_of_eq rfl rfl
  exact hafter ▸ hready.trans (receive_last _ hrequest hn)

/-- The last round is not entered. -/
theorem Moment.next?_of_entered {m : Moment σ} (hv : view ∈ m.entered) : next? view.round ≠ none := by
  intro hn
  have h0 : view.round ≠ 0 := by
    intro h0
    rw [h0] at hn
    exact next?_zero hn
  obtain ⟨c, current, hheard, hseq, ha, -⟩ := m.steps.decided hv h0
  have hrequest := ha.request
  rw [hseq] at hrequest
  rcases m.leavesRoom_or with hroom | hquiet
  · exact hroom c hheard view hrequest hn
  · obtain ⟨new, hnew, hnone⟩ := hquiet.effects
    rw [Moment.entered, shown_of_leads hnew, hnone] at hv
    cases hv

/-- No request for the last round is counted. -/
theorem Run.counted_leavesRoom (hn : start.view? = none) (hr : Run start h r) :
    ∀ view ∈ r.view?, r.position.Counted (fun c _ => c.LeavesRoom) view := by
  induction hr with
  | nil => simp [hn]
  | @step h r e _ ih =>
    rcases Moment.leavesRoom_or ⟨r, e⟩ with hroom | hquiet
    · exact (Moment.steps ⟨r, e⟩).counted (fun m hm _ _ => hroom m hm) ih
    · have hposition : (r.react e).position = r.position := hquiet.position
      have hview : (r.react e).view? = r.view? := congrArg Position.view hposition
      rw [hview, hposition]
      exact ih

theorem next?_of_maxRound? {n : Nat} {round : Round}
    (hc : r.position.Counted (fun c _ => c.LeavesRoom) view)
    (hm : r.roundChanges.maxRound? (n + 1) = some round) : next? round ≠ none := by
  obtain ⟨e, he, rfl⟩ := Option.map_eq_some_iff.mp hm
  have hsize := List.find?_some he
  have hsize : n + 1 ≤ e.2.size := of_decide_eq_true hsize
  obtain ⟨c, hmem⟩ := List.exists_mem_of_length_pos (Nat.lt_of_lt_of_le (Nat.succ_pos n) hsize)
  have hpoll := List.mem_reverse.mp (List.mem_of_find?_eq_some he)
  obtain ⟨hrequest, hroom⟩ := (hc.polls e hpoll).2 c hmem
  exact hroom _ hrequest

theorem startRound_view (r : Replica σ) (round : Round) :
    (r.startRound round).view? = r.view? ∨
      ∃ view, (r.startRound round).view? = some view ∧ (view.round = 0 ∨ view.round = round) := by
  refine startRound_induction (P := fun s => s.view? = r.view? ∨ ∃ view, s.view? = some view ∧
    (view.round = 0 ∨ view.round = round)) r round (fun sequence _ _ => ?_) (fun a _ _ _ _ => ?_)
    (fun _ _ _ _ _ _ => .inl rfl) fun _ => .inl rfl
  · exact .inr ⟨_, (startSequence_timed r _ sequence).current, .inl rfl⟩
  · exact .inr ⟨_, (changeRound_timed r _ a round).current, .inr rfl⟩

/-- A request takes the replica to a round after which there is another one, if to any. -/
theorem Treats.roundChange_view {v : Except Rejection Unit} (h : r.Treats m v s)
    (hk : m.kind = .roundChange) :
    s.view? = r.view? ∨ ∃ view, s.view? = some view ∧ next? view.round ≠ none := by
  have hother {kind : MessageKind} (hkind : m.kind = kind) : kind = .roundChange := hkind.symm.trans hk
  cases h with
  | refuse => exact .inl rfl
  | consult => exact .inl rfl
  | answer _ hkind => cases hother hkind
  | object hkind => cases hother hkind
  | accept hp => cases hother hp.kind
  | support hp => cases hother hp.kind
  | countPrepare hc => cases hother hc.kind
  | lock hc => cases hother hc.kind
  | countCommit hc => cases hother hc.kind
  | finalize hc => cases hother hc.kind
  | release hc => cases hother hc.kind
  | tally => exact .inl rfl
  | @join current round ha _ _ _ hn =>
    have hview : ({ r with roundChanges := (r.roundChanges.add round m).2 } : Replica σ).view? =
      some current := ha.current
    by_cases hlt : current.round < round
    · exact .inr ⟨_, (sendRoundChange_timed hview hlt).current, hn⟩
    · rw [sendRoundChange_of_not_lt hview hlt]
      exact .inl rfl
  | @enter _ round _ _ hn =>
    refine (startRound_view { r with roundChanges := (r.roundChanges.add round m).2 } round).imp_right ?_
    rintro ⟨view, hview, hround⟩
    refine ⟨view, hview, ?_⟩
    rcases hround with hround | hround
    · rw [hround]
      decide
    · rwa [hround]

theorem receive_roundChange_view (r : Replica σ) {d : Delivery} (hk : d.message.kind = .roundChange) :
    (r.receive d).view? = r.view? ∨
      ∃ view, (r.receive d).view? = some view ∧ next? view.round ≠ none := by
  refine receive_induction (P := fun s => s.view? = r.view? ∨ ∃ view, s.view? = some view ∧
    next? view.round ≠ none) r d ?_ (fun s hs => ?_) (fun s _ _ hs => ?_) fun s e hs => hs
  · exact (process_treats r d.message).roundChange_view hk
  · rwa [(relay_remains s d.payload).view]
  · rwa [(postpone_holds s d).view]

/-- The replica goes from the round before the last one to the last one, and not because it is asked
to. -/
structure Moment.Exhausts (m : Moment σ) (view : View) : Prop where
  before : ∃ round, m.before.view? = some ⟨view.sequence, round⟩ ∧ next? round = some view.round
  after : m.after.view? = some view
  heard : ∀ c ∈ m.heard, c.kind ≠ .roundChange

theorem Moment.exhausts {m : Moment σ} (hsound : m.before.Sound)
    (hc : ∀ view ∈ m.before.view?, m.before.position.Counted (fun c _ => c.LeavesRoom) view)
    (hbefore : m.before.view? ≠ some view) (hafter : m.after.view? = some view)
    (hn : next? view.round = none) : m.Exhausts view := by
  have hunasked : ∀ c ∈ m.heard, c.kind ≠ .roundChange := by
    intro c hc hk
    obtain ⟨d, ready, rfl, he⟩ := Moment.receives hc
    rcases receive_roundChange_view { m.before with ready } hk with hv | ⟨later, hv, hnext⟩
    · exact hbefore (hv.symm.trans (he ▸ hafter))
    · obtain rfl := Option.some.inj (hv.symm.trans (he ▸ hafter))
      exact hnext hn
  have hstays {u : Replica σ} (hk : Holds u m.after) (hu : u.view? = m.before.view?) : m.Exhausts view :=
    absurd (hu.symm.trans (hk.view.symm.trans hafter)) hbefore
  have hs : Shift m.heard m.before m.after := react_shift m.before m.event
  cases hs with
  | stay hk => exact hstays hk.toHolds rfl
  | store _ _ hk => exact hstays hk rfl
  | adopt hk => exact hstays hk.toHolds rfl
  | count _ _ _ hk => exact hstays hk.toHolds rfl
  | ask _ hv hr hk =>
    obtain rfl := Option.some.inj (hafter.symm.trans (hk.view.trans (catchUp_view _ _)))
    exact ⟨⟨_, hv, hr⟩, hafter, hunasked⟩
  | join hm ha => exact absurd ha.request.kind (hunasked _ hm)
  | follow _ _ hv _ hq hk =>
    obtain rfl := Option.some.inj (hafter.symm.trans (hk.view.trans (catchUp_view _ _)))
    exact absurd hn (next?_of_maxRound? (hc _ hv) hq)
  | enter hm ha => exact absurd ha.request.kind (hunasked _ hm)
  | leave hl => exact absurd hn ((react_sound m.event hsound).endless hl.active view hafter)

theorem Run.exhausted (hstart : start.view? = none) (hr : Run start h r) (hv : r.view? = some view)
    (hn : next? view.round = none) : ∃ m ∈ h, m.Exhausts view := by
  induction hr with
  | nil =>
    rw [hstart] at hv
    cases hv
  | @step h r e hr ih =>
    by_cases hbefore : r.view? = some view
    · obtain ⟨m, hm, hexhausts⟩ := ih hbefore
      exact ⟨m, List.mem_cons_of_mem _ hm, hexhausts⟩
    · exact ⟨_, List.mem_cons_self, Moment.exhausts (m := ⟨r, e⟩) (hr.sound hstart)
        (hr.counted_leavesRoom hstart) hbefore hv hn⟩

/-- Nothing but a later height leads out of the last round. -/
theorem Moment.stuck {m : Moment σ} (hv : m.before.view? = some view) (hn : next? view.round = none) :
    m.after.view? = some view ∨
      ∃ later, m.after.view? = some later ∧ view.sequence < later.sequence := by
  obtain ⟨later, hlater, -⟩ := Moment.sequence_le hv
  by_cases hlt : view.sequence < later.sequence
  · exact .inr ⟨later, hlater, hlt⟩
  · have hadvance := m.advances.le
    rw [progress_eq hv, progress_eq hlater, WithBot.coe_le_coe] at hadvance
    have hbelow : ¬ later < view := fun h => not_lt_of_ge hadvance (Progress.of_lt_of.mpr (.inl h))
    have habove : ¬ view < later := by
      rintro (h | ⟨-, h⟩)
      · exact hlt h
      · exact UInt64.not_lt.mpr (le_of_next?_eq_none hn) h
    exact .inl (hlater.trans (congrArg some (View.eq_of_not_lt hbelow habove)))

/-- In every run, the last round of a height is never entered. A replica can be in it only because it has
given up the round before it, by itself; then it waits there, and whatever happens it stays there until it
goes on to a later height. -/
theorem last_round_not_entered {signer : Signer} {ledger : σ} {archive : Archive} {gossip : Gossip}
    {timer : Timer} {capacity : Nat}
    (hc : create signer ledger archive gossip timer capacity = .ok start) (hr : Run start h r) :
    (∀ view ∈ h.flatMap Moment.entered, next? view.round ≠ none) ∧
    ∀ view, r.view? = some view → next? view.round = none →
      r.waiting = true ∧ (∃ m ∈ h, m.Exhausts view) ∧
      ∀ e, (r.react e).view? = some view ∨
        ∃ later, (r.react e).view? = some later ∧ view.sequence < later.sequence := by
  obtain ⟨-, -, -, -, -, hattempt, -⟩ := create_spec hc
  have hstart : start.view? = none := by simp [view?, hattempt]
  refine ⟨fun view hview => ?_, fun view hv hn => ⟨?_, hr.exhausted hstart hv hn, fun e => ?_⟩⟩
  · obtain ⟨m, -, hview⟩ := List.mem_flatMap.mp hview
    exact Moment.next?_of_entered hview
  · by_contra hactive
    exact (hr.sound hstart).endless (Bool.eq_false_iff.mpr hactive) view hv hn
  · exact Moment.stuck (m := ⟨r, e⟩) hv hn

end Replica

namespace Pair

open Replica

attribute [local instance] Scheme.plain

def penultimate : Round := 18446744073709551614

/-- The second validator asks for the round before the last one, and the first one joins it. Then the
first one runs out of time there. -/
def exhaustingEvents : List (Event MemoryLedger) :=
  [.start] ++ hear (Message.roundChange second ⟨1, penultimate⟩) ++
    [.input (.timeout ⟨1, 0⟩), .process, .input (.timeout ⟨1, penultimate⟩)]

/-- It is in the last round then. -/
theorem last_round_reached : ∃ start, replica first = .ok start ∧
    Run start (start.moments exhaustingEvents) (exhaustingEvents.foldl react start) ∧
    (exhaustingEvents.foldl react start).view? = some ⟨1, penultimate + 1⟩ ∧
    next? (penultimate + 1) = none := by
  obtain ⟨start, hc, hv⟩ := exists_replica (k := first) (P := fun start =>
    (exhaustingEvents.foldl react start).view? = some ⟨1, penultimate + 1⟩) (by decide +kernel)
  exact ⟨start, hc, moments_run start exhaustingEvents, hv, by decide⟩

/-- The round before the last one has been entered there, and the last one has not. -/
theorem last_round_not_entered_exhausted : ∃ start, replica first = .ok start ∧
    (start.moments exhaustingEvents).flatMap Moment.entered = [⟨1, penultimate⟩, ⟨1, 0⟩] ∧
    (exhaustingEvents.foldl react start).view? = some ⟨1, penultimate + 1⟩ ∧
    (exhaustingEvents.foldl react start).waiting = true ∧
    (∃ m ∈ start.moments exhaustingEvents, m.Exhausts ⟨1, penultimate + 1⟩) ∧
    ((exhaustingEvents.foldl react start).react (.input (.timeout ⟨1, penultimate + 1⟩))).view? =
      some ⟨1, penultimate + 1⟩ := by
  obtain ⟨start, hc, hentered, hv, hlast⟩ := exists_replica (k := first) (P := fun start =>
    (start.moments exhaustingEvents).flatMap Moment.entered = [⟨1, penultimate⟩, ⟨1, 0⟩] ∧
    (exhaustingEvents.foldl react start).view? = some ⟨1, penultimate + 1⟩ ∧
    ((exhaustingEvents.foldl react start).react (.input (.timeout ⟨1, penultimate + 1⟩))).view?.map
      (·.sequence) = some 1) (by decide +kernel)
  obtain ⟨-, hexhausted⟩ := last_round_not_entered hc (moments_run start exhaustingEvents)
  obtain ⟨hw, hm, hstuck⟩ := hexhausted _ hv (by decide)
  refine ⟨start, hc, hentered, hv, hw, hm, ?_⟩
  refine (hstuck (.input (.timeout ⟨1, penultimate + 1⟩))).resolve_right ?_
  rintro ⟨later, hlater, hlt⟩
  rw [hlater] at hlast
  have hsame : later.sequence = 1 := Option.some.inj hlast
  exact UInt64.lt_irrefl 1 (hsame ▸ hlt)

end Pair

end BlockAgreement
