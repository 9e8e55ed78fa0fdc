import BlockAgreement.Proofs.Replica.Sending

/-!
# What comes of a message

A message that is processed takes the replica to a later phase or view, or it leaves less to process: at
most an old Preprepare is answered with a Commit. A proposal is broadcast only where a view is entered.
-/

set_option autoImplicit false

namespace BlockAgreement

namespace Replica

variable {σ : Type} [Scheme] {r s t : Replica σ} {own : List Message} {n k : Nat}

inductive Outcome (k : Nat) (r s : Replica σ) : Prop where
  /-- The replica stays where it is. -/
  | calm {own : List Message} (hs : Sends r s own k) (hf : Frame r s) (hw : weigh own < k)
      (ha : weigh s.agenda ≤ weigh r.agenda + weigh own)
  | rise (h : Rises r s)
  | enter (h : Enters r s)

theorem Silent.calm (h : Silent r s) (hk : 0 < k) : Outcome k r s :=
  .calm (h.toSpeaks.sends.mono (Nat.zero_le _)) h.toFrame hk
    (by rw [agenda, agenda, h.ready]; exact Nat.le_refl _)

theorem Outcome.mono (h : Outcome k r s) (hk : k ≤ n) : Outcome n r s := by
  cases h with
  | calm hs hf hw ha => exact .calm (hs.mono hk) hf (hw.trans_le hk) ha
  | rise h => exact .rise h
  | enter h => exact .enter h

theorem Outcome.of_silent (hs : Silent r s) (h : Outcome k s t) : Outcome k r t := by
  have hp : r.progress ≤ s.progress := hs.progress.ge
  cases h with
  | calm ht hf hw ha =>
    refine .calm (by simpa using hs.toSpeaks.sends.trans ht) (hs.toFrame.trans hf) hw ?_
    rwa [show s.agenda = r.agenda by rw [agenda, agenda, hs.ready]] at ha
  | rise h => exact .rise (h.of_sends hs.toSpeaks.sends hp)
  | enter h => exact .enter (h.of_sends hs.toSpeaks.sends hp)

theorem Outcome.silent (h : Outcome k r s) (ht : Silent s t) : Outcome k r t := by
  cases h with
  | calm hs hf hw ha =>
    refine .calm (hs.silent ht) (hf.trans ht.toFrame) hw ?_
    rwa [show t.agenda = s.agenda by rw [agenda, agenda, ht.ready]]
  | rise h =>
    obtain ⟨own, ho, hw⟩ := h.sends
    exact .rise ⟨ht.progress ▸ h.progress, own, ho.silent ht, hw⟩
  | enter h =>
    obtain ⟨own, ho, hone, hprop⟩ := h.sends
    exact .enter ⟨ht.progress ▸ h.progress, ht.waiting.trans h.active, own,
      ho.silent ht, hone, fun c hc => (hprop c hc).of_frame ht.toFrame⟩

theorem Outcome.sound (h : Outcome k r s) (hr : r.Sound) : s.Sound := by
  cases h with
  | calm hs => exact hs.sound hr
  | rise h =>
    obtain ⟨own, ho, -⟩ := h.sends
    exact ho.sound hr
  | enter h =>
    obtain ⟨own, ho, -⟩ := h.sends
    exact ho.sound hr

theorem Outcome.of_lt (hs : Sends r s [] 0) (hp : r.progress < s.progress) (h : Outcome 1 s t) :
    r.progress < t.progress ∧ Outcome 1 r t := by
  cases h with
  | @calm own ht hf hw ha =>
    have hlt : r.progress < t.progress := hf.progress ▸ hp
    exact ⟨hlt, .rise ⟨hlt, own, by simpa using hs.trans ht, hw.le⟩⟩
  | rise h => exact ⟨hp.trans h.progress, .rise (h.of_sends hs hp.le)⟩
  | enter h => exact ⟨hp.trans h.progress, .enter (h.of_sends hs hp.le)⟩

theorem sendRoundChange_outcome (r : Replica σ) (round : Round) (hk : 0 < k) :
    Outcome k r (r.sendRoundChange round) := by
  rcases sendRoundChange_or r round with he | h
  · rw [he]
    exact (Silent.refl r).calm hk
  · exact .rise h

theorem sendNextRoundChange_outcome (r : Replica σ) (hk : 0 < k) :
    Outcome k r r.sendNextRoundChange := by
  unfold sendNextRoundChange
  split
  · exact (Silent.refl r).calm hk
  · exact sendRoundChange_outcome r _ hk

theorem startRound_outcome [Ledger σ] {round : Round} (hround : next? round ≠ none)
    (hr : round = 0 ∨ r.waiting = true ∨ ∀ a ∈ r.attempt, a.view.round < round) (hk : 0 < k) :
    Outcome k r (r.startRound round) := by
  rcases startRound_or hround hr with (he | he) | h
  · rw [he]
    exact (Silent.refl r).calm hk
  · rw [he]
    exact r.ended_silent.calm hk
  · exact .enter h

omit [Scheme] in
theorem archive_silent (r : Replica σ) (archive : Archive) : Silent r { r with archive } :=
  silent_of_eq rfl rfl rfl rfl rfl ⟨rfl, rfl, rfl, rfl, rfl⟩

omit [Scheme] in
theorem attempt_silent {a b : Attempt} (ha : r.attempt = some a) (hv : b.view = a.view) :
    Silent r { r with attempt := some b } :=
  silent_of_eq rfl rfl rfl rfl rfl ⟨rfl, by simp [view?, ha, hv], rfl, rfl, rfl⟩

section Votes

variable {m : Message} {phase : Phase}

theorem voting_sends (archive : Archive) {a b : Attempt} (ha : r.attempt = some a) (hv : b.view = a.view)
    (hw : r.waiting = false) (hp : r.phase < phase) :
    Sends r (r.voting archive b phase) [] 0 ∧ r.progress < (r.voting archive b phase).progress := by
  have hattempt : Silent r { r with archive, attempt := some b } :=
    (archive_silent r archive).trans (attempt_silent (r := { r with archive }) ha hv)
  have hset : Sends { r with archive, attempt := some b }
      { r with archive, attempt := some b, phase } [] 0 :=
    ⟨says_of_eq rfl rfl rfl rfl, rfl, fun h => ⟨h.held, h.endless⟩⟩
  have hphase := enterPhase_speaks { r with archive, attempt := some b } phase (by
    rintro rfl
    exact absurd hp (Nat.not_lt_zero _))
  refine ⟨by simpa [voting] using (hattempt.toSpeaks.sends.trans hset).trans hphase.sends, ?_⟩
  rw [voting, hphase.progress, progress_eq (view?_of_attempt ha),
    progress_eq (r := { r with archive, attempt := some b, phase }) (rfl : _ = some b.view),
    WithBot.coe_lt_coe, hw]
  exact Progress.of_lt_of.mpr (.inr ⟨hv.symm, Nat.succ_lt_succ hp⟩)

theorem voting_rises (archive : Archive) {a b : Attempt} (ha : r.attempt = some a) (hv : b.view = a.view)
    (hw : r.waiting = false) (hp : r.phase < phase)
    (hs : ∃ own, Speaks (r.voting archive b phase) s own 1 ∧ weigh own ≤ 1) : Rises r s := by
  obtain ⟨hphase, hlt⟩ := voting_sends archive ha hv hw hp
  obtain ⟨own, ho, hweigh⟩ := hs
  exact ⟨by rwa [ho.progress], own, by simpa using hphase.trans ho.sends, hweigh⟩

theorem acceptProposal_or {a : Attempt} (ha : r.attempt = some a) (hw : r.waiting = false)
    (hn : r.phase = .newRound) (p : Preprepare) :
    Rises r (r.acceptProposal p) ∨ r.acceptProposal p = r.sendNextRoundChange := by
  have hpreprepared : r.phase < .preprepared := by
    rw [hn]
    decide
  have hprepared : r.phase < .prepared := by
    rw [hn]
    decide
  have hview : ({ a with preprepare := some p } : Attempt).view = a.view := rfl
  rw [acceptProposal_eq ha]
  split
  · exact .inl (voting_rises r.archive ha hview hw hpreprepared (sendPrepare_speaks _))
  · split
    · exact .inl (voting_rises r.archive ha hview hw hprepared (sendCommit_speaks _))
    · exact .inr rfl

theorem decided_sends {a b : Attempt} {x : Block} (ha : r.attempt = some a) (hv : b.view = a.view)
    (hw : r.waiting = false) (hp : r.phase < .committed) :
    Sends r (r.decided b x) [] 0 ∧ r.progress < (r.decided b x).progress := by
  obtain ⟨hphase, hlt⟩ := voting_sends r.archive (b := { b with lock := some x.hash }) ha hv hw hp
  have hemit : Silent _ (r.decided b x) := emit_silent _ (by rfl)
  exact ⟨hphase.silent hemit, by rwa [hemit.progress]⟩

theorem released_outcome {a b : Attempt} {x : Block} (ha : r.attempt = some a) (hv : b.view = a.view)
    (hw : r.waiting = false) (hp : r.phase < .committed) :
    r.progress < (r.released b x).sendNextRoundChange.progress ∧
      Outcome 1 r (r.released b x).sendNextRoundChange := by
  obtain ⟨hdecided, hlt⟩ := decided_sends (x := x) ha hv hw hp
  have hreleased : Silent (r.decided b x) (r.released b x) :=
    attempt_silent (decided_attempt r b x) (by rfl)
  exact Outcome.of_lt (hdecided.silent hreleased) (hreleased.progress ▸ hlt)
    (sendNextRoundChange_outcome _ Nat.one_pos)

variable [Ledger σ]

theorem finalized_outcome {a b : Attempt} {x : Block} {ledger : σ} (ha : r.attempt = some a)
    (hv : b.view = a.view) (hw : r.waiting = false) (hp : r.phase < .committed) :
    r.progress < ((r.finalized b x ledger).startRound 0).progress ∧
      Outcome 1 r ((r.finalized b x ledger).startRound 0) := by
  obtain ⟨hdecided, hlt⟩ := decided_sends (x := x) ha hv hw hp
  have hledger : Silent (r.decided b x) { r.decided b x with ledger } :=
    silent_of_eq rfl rfl rfl rfl rfl ⟨rfl, rfl, rfl, rfl, rfl⟩
  have hfinalized : Silent (r.decided b x) (r.finalized b x ledger) := hledger.trans (notify_silent _ _)
  exact Outcome.of_lt (hdecided.silent hfinalized) (hfinalized.progress ▸ hlt)
    (startRound_outcome next?_zero (.inl rfl) Nat.one_pos)

omit [Scheme] [Ledger σ] in
theorem roundChanges_silent (r : Replica σ) (roundChanges : RoundChanges) :
    Silent r { r with roundChanges } :=
  silent_of_eq rfl rfl rfl rfl rfl ⟨rfl, rfl, rfl, rfl, rfl⟩

theorem Treats.outcome {v : Except Rejection Unit} (h : r.Treats m v s) : Outcome m.weight r s := by
  have hpos := m.weight_pos
  cases h with
  | refuse => exact (Silent.refl r).calm hpos
  | consult => exact (archive_silent r _).calm hpos
  | @answer _ p _ archive _ hk =>
    obtain ⟨own, ho, hw, ha⟩ := sendCommitFor_speaks { r with archive } ⟨p.view, p.proposal.hash⟩
    rw [Message.weight_preprepare hk]
    refine .of_silent (archive_silent r archive)
      (.calm (ho.sends.mono (by decide)) ho.toFrame (by omega) ?_)
    rw [ha, weigh_append]
  | object => exact (sendNextRoundChange_outcome _ hpos).of_silent (archive_silent r _)
  | @accept _ _ archive hp =>
    have hphase : r.phase < .preprepared := by
      rw [show r.phase = _ from hp.fresh]
      decide
    exact .rise (voting_rises archive hp.attempt (by rfl) hp.active hphase (sendPrepare_speaks _))
  | @support _ _ archive hp =>
    have hphase : r.phase < .prepared := by
      rw [show r.phase = _ from hp.fresh]
      decide
    exact .rise (voting_rises archive hp.attempt (by rfl) hp.active hphase (sendCommit_speaks _))
  | countPrepare hc => exact (attempt_silent hc.attempt (by rfl)).calm hpos
  | lock hc _ _ hn =>
    exact .rise (voting_rises r.archive hc.attempt (by rfl) hc.active hn (sendCommit_speaks _))
  | countCommit hc => exact (attempt_silent hc.attempt (by rfl)).calm hpos
  | finalize hc _ _ _ hn => exact (finalized_outcome hc.attempt (by rfl) hc.active hn).2.mono hpos
  | release hc _ _ _ hn => exact (released_outcome hc.attempt (by rfl) hc.active hn).2.mono hpos
  | tally => exact (roundChanges_silent r _).calm hpos
  | join => exact Outcome.of_silent (roundChanges_silent r _) (sendRoundChange_outcome _ _ hpos)
  | @enter view round ha hd hn =>
    refine Outcome.of_silent (roundChanges_silent r _)
      (startRound_outcome hn (.inr (hd.2.imp_right fun hlt a hattempt => ?_)) hpos)
    obtain rfl : view = a.view := Option.some.inj (ha.current.symm.trans (view?_of_attempt hattempt))
    exact hlt

omit [Ledger σ] in
theorem postpone_outcome (r : Replica σ) (d : Delivery) :
    Outcome d.message.weight r (r.postpone d) := by
  have hdrop : Outcome d.message.weight r (r.drop d.message .futureMessage) :=
    (drop_silent r d.message .futureMessage).calm d.message.weight_pos
  unfold postpone
  split
  · exact hdrop
  · rename_i view _
    split
    · rename_i backlog hins
      obtain rfl : (r.backlog.insert view d).2 = backlog := by rw [hins]
      have hsends : Sends r { r with backlog := (r.backlog.insert view d).2 } [] d.message.weight := by
        refine ⟨⟨id, ⟨[], rfl, rfl⟩, List.prefix_refl _, by simp, fun ho => ⟨ho.insert view d, ?_⟩⟩,
          rfl, fun h => ⟨h.held, h.endless⟩⟩
        have := ho.weigh_insert view d
        simp only [queued, weigh_append]
        omega
      exact .calm hsends ⟨rfl, rfl, rfl, rfl, rfl⟩ d.message.weight_pos (Nat.le_refl _)
    · exact hdrop

/-- Of the messages that are ready, one that is processed takes the replica on, or it is worth more than
all that it leaves to process. -/
theorem receive_outcome (r : Replica σ) (d : Delivery) :
    Outcome d.message.weight r (r.receive d) := by
  refine receive_induction r d (process_treats r d.message).outcome (fun s hs => ?_)
    (fun s hfuture _ _ => ?_)
    fun s e hs => ?_
  · exact hs.silent (relay_silent s _)
  · obtain ⟨rfl, -⟩ := process_future hfuture
    exact postpone_outcome s d
  · exact hs.silent (drop_silent s _ e)

theorem handleTimeout_outcome (r : Replica σ) (view : View) : Outcome 1 r (r.handleTimeout view) := by
  have htold := notify_silent r (.viewTimeout view)
  refine handleTimeout_induction r view (fun _ => (Silent.refl r).calm Nat.one_pos)
    (fun round _ _ _ _ => ?_) (fun _ _ => ?_) fun _ _ _ => ?_
  · exact Outcome.of_silent htold (sendRoundChange_outcome _ round Nat.one_pos)
  · exact Outcome.of_silent htold (startRound_outcome next?_zero (.inl rfl) Nat.one_pos)
  · exact Outcome.of_silent htold (sendNextRoundChange_outcome _ Nat.one_pos)

end Votes

end Replica

end BlockAgreement
