import BlockAgreement.Proofs.Replica.Hearing

/-!
# Whatever a replica does, its position changes by steps

Most of what a replica does leaves its position alone. What does not is one step of the position for
each function, and a view is entered exactly when it is reported as entered.
-/

set_option autoImplicit false

namespace BlockAgreement

open Position

namespace Replica

variable {σ : Type} [Ledger σ] [Scheme] {r s t : Replica σ} {origin : Position}
  {heard : Option Message} {head : Height}

def Course (origin : Position) (heard : Option Message) (head : Height) (r s : Replica σ) : Prop :=
  ∃ new, s.effects = new ++ r.effects ∧
    Steps origin heard head r.position (Effect.entered new) s.position

theorem Course.trans (hs : Course origin heard head r s) (ht : Course origin heard head s t) :
    Course origin heard head r t := by
  obtain ⟨es, he, hs⟩ := hs
  obtain ⟨fs, hf, ht⟩ := ht
  refine ⟨fs ++ es, by rw [hf, he, List.append_assoc], ?_⟩
  rw [Effect.entered_append]
  exact hs.trans ht

theorem Quiet.course (h : Quiet r s) : Course origin heard head r s := by
  obtain ⟨new, he, hn⟩ := h.effects
  refine ⟨new, he, ?_⟩
  rw [h.position, hn]
  exact .refl _

theorem Course.refl (r : Replica σ) : Course origin heard head r r := (Quiet.refl r).course

theorem course_step (h : Step origin heard head r.position [] s.position)
    (he : s.effects = r.effects) : Course origin heard head r s := ⟨[], he, h.single⟩

theorem Course.head_eq (h : Course origin heard r.position.head r s) :
    s.position.head = r.position.head := by
  obtain ⟨_, -, h⟩ := h
  exact h.head_eq

section Views

theorem sendRoundChange_course (r : Replica σ) (round : Round) :
    Course origin heard head r (r.sendRoundChange round) := by
  unfold sendRoundChange
  split
  · exact .refl r
  · rename_i current hv
    split
    · rename_i hr
      have hcatch : Course origin heard head r (r.catchUp ⟨current.sequence, round⟩) := by
        refine course_step ?_ rfl
        have hview : (r.catchUp ⟨current.sequence, round⟩).view? =
            some ⟨current.sequence, round⟩ := by
          unfold catchUp view?
          cases r.attempt <;> rfl
        have hp : (r.catchUp ⟨current.sequence, round⟩).position =
            { r.position with
              view := some ⟨current.sequence, round⟩
              waiting := true
              roundChanges := r.roundChanges.clear round } := by
          rw [position, hview]
          rfl
        rw [hp]
        exact .ask hv hr
      exact hcatch.trans (broadcast_quiet _ _ rfl).course
    · exact .refl r

theorem sendNextRoundChange_course (r : Replica σ) :
    Course origin heard head r r.sendNextRoundChange := by
  unfold sendNextRoundChange
  split
  · exact .refl r
  · exact sendRoundChange_course r _

/-- A view is announced some time after it has been entered. The requests that have been counted until
then do not matter. -/
theorem announceView_course {committee : Committee} {roundChanges : RoundChanges} {header : Header}
    {a : Attempt} (hs : Quiet { r with committee, roundChanges } s)
    (ht : Quiet (s.enterView header a) t)
    (h : Step origin heard head r.position [a.view]
      (r.position.entering a.view s.committee (lastProposer header))) :
    Course origin heard head r (t.announceView a.view) := by
  have hentered : Quiet { s with
      roundChanges := .empty a.view.sequence s.committee
      attempt := some a
      committee := s.committee.choose (lastProposer header) a.view.round
      waiting := false
      phase := .newRound } t := (enterPhase_quiet _ .newRound).trans ht
  have hp : t.position = r.position.entering a.view s.committee (lastProposer header) := by
    have hfrom : s.position.entering a.view s.committee (lastProposer header) =
        r.position.entering a.view s.committee (lastProposer header) := by
      rw [hs.position]
      rfl
    exact hentered.position.trans hfrom
  obtain ⟨es, he, hes⟩ := hs.effects
  obtain ⟨fs, hf, hfs⟩ := hentered.effects
  have he : s.effects = es ++ r.effects := he
  have hf : t.effects = fs ++ s.effects := hf
  refine ⟨.notify (.startRound a.view t.committee.proposer (t.timer.timeout a.view.round)) ::
    (fs ++ es), ?_, ?_⟩
  · have hnew : t.effects = (fs ++ es) ++ r.effects := by rw [hf, he, List.append_assoc]
    exact congrArg (_ :: ·) hnew
  · have hview : Effect.entered (.notify (.startRound a.view t.committee.proposer
        (t.timer.timeout a.view.round)) :: (fs ++ es)) = [a.view] := by
      rw [← List.singleton_append, Effect.entered_append, Effect.entered_append, hes, hfs]
      rfl
    rw [hview]
    exact (hp ▸ h.single : Steps origin heard head r.position [a.view] t.position)

theorem startSequence_course {sequence : Height} (hn : next? r.position.head = some sequence)
    (hv : ∀ view ∈ r.view?, view.sequence ≤ r.position.head) (roundChanges : RoundChanges)
    (header : Header) :
    Course origin heard head r ({ r with roundChanges }.startSequence header sequence) := by
  obtain ⟨committee, hc⟩ := refreshCommittee_quiet { r with roundChanges } header
  exact announceView_course (r := r) hc (.refl _) (.enterSequence hn hv)

theorem changeRound_course {a : Attempt} {round : Round} (roundChanges : RoundChanges)
    {header : Header}
    (h : Step origin heard head r.position [⟨a.view.sequence, round⟩]
      (r.position.entering ⟨a.view.sequence, round⟩ r.committee (lastProposer header))) :
    Course origin heard head r ({ r with roundChanges }.changeRound header a round) := by
  have hs : Quiet { r with committee := r.committee, roundChanges } { r with roundChanges } := .refl _
  exact announceView_course hs (proposeAgain_quiet _) h

theorem startRound_course {round : Round} (roundChanges : RoundChanges)
    (h : ∀ view ∈ r.view?, ∀ last, next? r.position.head = some view.sequence → round ≠ 0 →
      Step origin heard head r.position [⟨view.sequence, round⟩]
        (r.position.entering ⟨view.sequence, round⟩ r.committee last))
    (hmiss : (∀ view ∈ r.view?, ∀ sequence, next? r.position.head = some sequence →
      ¬ view.sequence ≤ r.position.head ∧
        (sequence = view.sequence → round = 0 ∨ round < view.round)) →
      Course origin heard head r { r with roundChanges }) :
    Course origin heard head r ({ r with roundChanges }.startRound round) := by
  refine startRound_induction { r with roundChanges } round (fun sequence hn hle => ?_)
    (fun a ha hn h0 hbelow => ?_) (fun next current hnext hcurrent hgt hround => ?_) fun hnone => ?_
  · exact startSequence_course (r := r) hn hle roundChanges _
  · exact changeRound_course roundChanges (h a.view (view?_of_attempt ha) _ hn h0)
  · refine hmiss fun view hv sequence hn => ?_
    obtain rfl := Option.some.inj (hcurrent.symm.trans hv)
    obtain rfl := Option.some.inj (hnext.symm.trans hn)
    exact ⟨hgt, hround⟩
  · have hstopped : Quiet { r with roundChanges } { r with roundChanges, started := false } :=
      quiet_of_eq rfl rfl
    exact (hmiss fun _ _ sequence hn => nomatch hnone.symm.trans hn).trans hstopped.course

theorem startRound_zero_course (r : Replica σ) : Course origin heard head r (r.startRound 0) :=
  startRound_course r.roundChanges (fun _ _ _ _ h0 => absurd rfl h0) fun _ => .refl r

theorem handleTimeout_course (r : Replica σ) (view : View) :
    Course origin heard head r (r.handleTimeout view) := by
  have htold : Course origin heard head r (r.notify (.viewTimeout view)) :=
    (emit_quiet r (e := .notify (.viewTimeout view)) rfl).course
  refine handleTimeout_induction r view (fun _ => .refl r) (fun round _ _ _ _ => ?_) (fun _ _ => ?_)
    fun _ _ _ => ?_
  · exact htold.trans (sendRoundChange_course _ round)
  · exact htold.trans (startRound_zero_course _)
  · exact htold.trans (sendNextRoundChange_course _)

end Views

section Votes

variable {m : Message} {phase : Phase} {a b : Attempt} {archive : Archive}

theorem voting_course (archive : Archive) (ha : r.attempt = some a) (hv : b.view = a.view)
    (hw : r.waiting = false) (hp : r.phase.rank ≤ phase.rank) :
    Course origin heard head r (r.voting archive b phase) := by
  have hattempt : Quiet r { r with archive, attempt := some b } :=
    quiet_of_eq (setAttempt_quiet ha hv).position rfl
  have hrise : Course origin heard head { r with archive, attempt := some b }
      { r with archive, attempt := some b, phase } := course_step (.rise hw hp) rfl
  exact (hattempt.course.trans hrise).trans (enterPhase_quiet _ phase).course

theorem decided_course {x : Block} (ha : r.attempt = some a) (hv : b.view = a.view)
    (hw : r.waiting = false) :
    Course origin heard head r (r.decided b x) := by
  have hphase : Course origin heard head r
      (r.voting r.archive { b with lock := some x.hash } .committed) :=
    voting_course r.archive ha hv hw (by cases r.phase <;> decide)
  exact hphase.trans (emit_quiet _ rfl).course

theorem released_course {x : Block} (ha : r.attempt = some a) (hv : b.view = a.view)
    (hw : r.waiting = false) :
    Course origin heard head r (r.released b x) :=
  (decided_course ha hv hw).trans (setAttempt_quiet (decided_attempt r b x) (by rfl)).course

theorem finalized_course {x : Block} {ledger : σ} (ha : r.attempt = some a) (hv : b.view = a.view)
    (hw : r.waiting = false) :
    Course origin heard ((r.finalized b x ledger).startRound 0).position.head r
      ((r.finalized b x ledger).startRound 0) := by
  have hstart (head : Height) : Course origin heard head (r.finalized b x ledger)
      ((r.finalized b x ledger).startRound 0) := startRound_zero_course _
  rw [(hstart _).head_eq]
  have happend : Course origin heard (Ledger.head ledger).number (r.decided b x)
      { r.decided b x with ledger } := course_step .append rfl
  have hledger : Course origin heard (Ledger.head ledger).number r (r.finalized b x ledger) :=
    ((decided_course ha hv hw).trans happend).trans (emit_quiet _ rfl).course
  exact hledger.trans (hstart _)

end Votes

section Inputs

section Requests

variable {view : View} {round : Round} {m : Message}

theorem count_course (head : Height) (ha : r.position.Admits view round m)
    (hq : ¬ r.position.Decides view round m) :
    Course r.position (some m) head r
      { r with roundChanges := (r.roundChanges.add round m).2 } := course_step (.count rfl ha hq) rfl

theorem decide_course (head : Height) (ha : r.position.Admits view round m)
    (hq : r.position.Decides view round m) :
    Course r.position (some m) head r
      ({ r with roundChanges := (r.roundChanges.add round m).2 }.startRound round) := by
  refine startRound_course _ ?_ fun hmiss => course_step (.miss rfl ha hq ?_) rfl
  · intro current hv last hn h0
    obtain rfl := Option.some.inj (ha.current.symm.trans hv)
    exact .enterRound rfl ha hq h0 hn
  · intro sequence hn
    obtain ⟨hgt, hround⟩ := hmiss view ha.current sequence hn
    exact ⟨hgt, fun he => (hround he).resolve_right ha.above⟩

end Requests

/-- Whatever is done about a message, the position changes by steps. -/
theorem Treats.course {m : Message} {v : Except Rejection Unit} (h : r.Treats m v s) :
    Course r.position (some m) s.position.head r s := by
  have harchive (archive : Archive) : Quiet r { r with archive } := quiet_of_eq rfl rfl
  cases h with
  | refuse => exact .refl r
  | consult => exact (harchive _).course
  | answer => exact ((harchive _).trans (sendCommitFor_quiet _ _)).course
  | object => exact (harchive _).course.trans (sendNextRoundChange_course _)
  | @accept a p archive hp =>
    have hrank : r.phase.rank ≤ Phase.preprepared.rank := by
      rw [show r.phase = _ from hp.fresh]
      decide
    refine Course.trans ?_ (sendPrepare_quiet _).course
    exact voting_course archive hp.attempt rfl hp.active hrank
  | @support a p archive hp =>
    have hrank : r.phase.rank ≤ Phase.prepared.rank := by
      rw [show r.phase = _ from hp.fresh]
      decide
    refine Course.trans ?_ (sendCommit_quiet _).course
    exact voting_course archive hp.attempt rfl hp.active hrank
  | countPrepare hc => exact (setAttempt_quiet hc.attempt rfl).course
  | lock hc _ _ hn =>
    have hrank : r.phase.rank ≤ Phase.prepared.rank := Nat.le_of_lt hn
    refine Course.trans ?_ (sendCommit_quiet _).course
    exact voting_course r.archive hc.attempt rfl hc.active hrank
  | countCommit hc => exact (setAttempt_quiet hc.attempt rfl).course
  | finalize hc => exact finalized_course hc.attempt (by rfl) hc.active
  | release hc =>
    exact (released_course hc.attempt (by rfl) hc.active).trans (sendNextRoundChange_course _)
  | tally ha hd => exact count_course _ ha hd
  | join ha hd => exact (count_course _ ha hd).trans (sendRoundChange_course _ _)
  | enter ha hd => exact decide_course _ ha hd

theorem process_course (r : Replica σ) (m : Message) :
    Course r.position (some m) (r.process m).2.position.head r (r.process m).2 :=
  (process_treats r m).course

theorem receive_course (r : Replica σ) (d : Delivery) :
    Course r.position (some d.message) (r.receive d).position.head r (r.receive d) := by
  have hquiet {s t : Replica σ} (hs : Course r.position (some d.message) s.position.head r s)
      (ht : Quiet s t) : Course r.position (some d.message) t.position.head r t := by
    rw [ht.position]
    exact hs.trans ht.course
  refine receive_induction (P := fun s => Course r.position (some d.message) s.position.head r s) r d
    (process_course r d.message) (fun s hs => ?_) (fun s _ _ hs => ?_) fun s e hs => ?_
  · exact hquiet hs (relay_quiet s _)
  · exact hquiet hs (postpone_quiet s d)
  · exact hquiet hs (drop_quiet s _ e)

theorem advance_course (d : Delivery) (ready : List Delivery) :
    Course r.position (some d.message) ({ r with ready }.receive d).position.head r
      ({ r with ready }.receive d) := by
  have hready : Quiet r { r with ready } := quiet_of_eq rfl rfl
  exact hready.course.trans (receive_course { r with ready } d)

/-- Whatever happens to a replica, its position changes by steps. -/
theorem react_course (r : Replica σ) (e : Event σ) :
    Course r.position (Moment.heard ⟨r, e⟩) (r.react e).position.head r (r.react e) := by
  cases e with
  | start =>
    unfold react
    dsimp only
    split
    · exact .refl r
    · have hstarted : Quiet r { r with started := true } := quiet_of_eq rfl rfl
      exact hstarted.course.trans (startRound_zero_course _)
  | stop => exact (quiet_of_eq rfl rfl : Quiet r r.stop).course
  | input i =>
    unfold react Moment.heard
    dsimp only
    split
    · cases i with
      | request b => exact (handleRequest_quiet r b).course
      | message d => exact receive_course r d
      | timeout view => exact handleTimeout_course r view
      | headMoved => exact startRound_zero_course r
    · cases i with
      | message d => exact (drop_quiet r _ _).course
      | _ => exact .refl r
  | process =>
    rcases Bool.eq_false_or_eq_true r.started with hs | hs
    · cases hr : r.ready with
      | nil =>
        simp only [react, advance, hs, hr, Option.getD_none]
        exact .refl r
      | cons d ready =>
        simpa only [react, advance, Moment.heard, hs, hr, if_true, Option.getD_some,
          List.head?_cons, Option.map_some] using advance_course (r := r) d ready
    · simp only [react, advance, hs, Option.getD_none]
      exact .refl r
  | lookup number hash => exact Quiet.course (quiet_of_eq (by rfl) (by rfl))
  | replace ledger => exact course_step .append (by rfl)

end Inputs

namespace Moment

/-- The views that the replica reports as entered, newest first. -/
def entered (m : Moment σ) : List View := Effect.entered m.shown

theorem steps (m : Moment σ) : Steps m.before.position m.heard m.after.position.head
    m.before.position m.entered m.after.position := by
  obtain ⟨new, hn, hs⟩ := react_course m.before m.event
  obtain rfl := shown_of_leads hn
  exact hs

end Moment

end Replica

end BlockAgreement
