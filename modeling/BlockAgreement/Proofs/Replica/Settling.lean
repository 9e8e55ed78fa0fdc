import BlockAgreement.Proofs.Replica.Outcome

/-!
# A replica settles

A replica processes everything that has become ready before it takes up the next input. This comes to an
end: each message either takes it to a later phase or view, of which there are fewer than `2 ^ 131`, or
leaves less to process. `settleLimit` messages are enough.
-/

set_option autoImplicit false

namespace BlockAgreement

namespace Replica

variable {σ : Type} {r s : Replica σ}

def stages : Nat := Nat.pow 2 131

def stage (r : Replica σ) : Nat :=
  r.view?.elim 0 fun view =>
    (view.sequence.toNat * UInt64.size + view.round.toNat) * 8 +
      (if r.waiting then 0 else r.phase.rank + 1) + 1

theorem offset_le (r : Replica σ) : (if r.waiting then 0 else r.phase.rank + 1) ≤ 4 := by
  split
  · exact Nat.zero_le _
  · cases r.phase <;> decide

theorem stage_lt_stages (r : Replica σ) : r.stage < stages := by
  unfold stage
  cases r.view? with
  | none => exact Nat.two_pow_pos 131
  | some view =>
    have hseq := view.sequence.toNat_lt
    have hround := view.round.toNat_lt
    have hphase := r.offset_le
    have hstages : stages = 8 * UInt64.size * UInt64.size := rfl
    simp only [Option.elim_some, hstages, UInt64.size]
    omega

theorem Frame.stage (hf : Frame r s) : s.stage = r.stage := by
  rw [Replica.stage, Replica.stage, hf.view, hf.waiting, hf.phase]

theorem stage_lt (h : r.progress < s.progress) : r.stage < s.stage := by
  unfold progress at h
  unfold stage
  cases hs : s.view? with
  | none => simp [hs] at h
  | some v =>
    cases hr : r.view? with
    | none => exact Nat.succ_pos _
    | some u =>
      rw [hr, hs] at h
      have hlt := Progress.of_lt_of.mp (WithBot.coe_lt_coe.mp h)
      have hu := u.round.toNat_lt
      have hv := v.round.toNat_lt
      have hphase := r.offset_le
      simp only [Option.elim_some, UInt64.size, View.lt_iff, UInt64.lt_iff_toNat_lt,
        ← UInt64.toNat_inj] at hlt ⊢
      rcases hlt with (hlt | ⟨heq, hlt⟩) | ⟨rfl, hlt⟩ <;> omega

def ahead (r : Replica σ) : Nat := stages - 1 - r.stage

def toil (r : Replica σ) : Nat := r.ahead * (weigh r.queued + 4 * r.ahead) + weigh r.agenda

theorem toil_le {load : Nat} (hw : weigh r.queued ≤ load + 4) :
    r.toil ≤ (r.ahead + 1) * (load + 4 * (r.ahead + 1)) := by
  have hready : weigh r.agenda ≤ weigh r.queued := by
    rw [queued, weigh_append]
    exact Nat.le_add_right _ _
  calc
    r.toil ≤ r.ahead * (weigh r.queued + 4 * r.ahead) + weigh r.queued := Nat.add_le_add_left hready _
    _ ≤ (r.ahead + 1) * (weigh r.queued + 4 * r.ahead) := by
      rw [Nat.add_one_mul r.ahead]
      exact Nat.add_le_add_left (Nat.le_add_right _ _) _
    _ ≤ (r.ahead + 1) * (load + 4 * (r.ahead + 1)) := Nat.mul_le_mul_left _ (by omega)

theorem toil_lt_of_stage (hlt : r.stage < s.stage) (hw : weigh s.queued ≤ weigh r.queued + 4)
    (ha : 0 < weigh r.agenda) : s.toil < r.toil := by
  have hahead : s.ahead + 1 ≤ r.ahead := by
    have := s.stage_lt_stages
    unfold ahead
    omega
  calc
    s.toil ≤ (s.ahead + 1) * (weigh r.queued + 4 * (s.ahead + 1)) := toil_le hw
    _ ≤ r.ahead * (weigh r.queued + 4 * r.ahead) := Nat.mul_le_mul hahead (by omega)
    _ < r.toil := Nat.lt_add_of_pos_right ha

theorem toil_lt_of_agenda (hstage : s.stage = r.stage) (hw : weigh s.queued ≤ weigh r.queued)
    (ha : weigh s.agenda < weigh r.agenda) : s.toil < r.toil := by
  have hahead : s.ahead = r.ahead := by rw [ahead, ahead, hstage]
  unfold toil
  rw [hahead]
  exact Nat.add_lt_add_of_le_of_lt (Nat.mul_le_mul_left _ (Nat.add_le_add_right hw _)) ha

theorem toil_le_settleLimit (r : Replica σ) : r.toil ≤ r.settleLimit := by
  have hlength : r.queued.length = r.ready.length + r.backlog.toList.length := by
    simp [queued, Backlog.messages, Backlog.toList, List.length_flatMap]
  have hqueued := weigh_le r.queued
  have hahead : r.ahead + 1 ≤ stages := by
    have := r.stage_lt_stages
    unfold ahead
    omega
  calc
    r.toil ≤ (r.ahead + 1) * (weigh r.queued + 4 * (r.ahead + 1)) := toil_le (Nat.le_add_right _ _)
    _ ≤ stages * (2 * (r.ready.length + r.backlog.toList.length) + 4 * stages) :=
      Nat.mul_le_mul hahead (by omega)
    _ = r.settleLimit := rfl

variable [Scheme]

theorem Outcome.sends {k : Nat} (h : Outcome k r s) (hk : k ≤ 4) : ∃ own, Sends r s own 4 := by
  cases h with
  | calm hs => exact ⟨_, hs.mono hk⟩
  | rise h =>
    obtain ⟨own, hs, -⟩ := h.sends
    exact ⟨own, hs.mono (by decide)⟩
  | enter h =>
    obtain ⟨own, hs, -⟩ := h.sends
    exact ⟨own, hs⟩

variable [Ledger σ]

theorem advance_eq_some (h : r.advance = some s) :
    ∃ d ready, r.started = true ∧ r.ready = d :: ready ∧ s = { r with ready }.receive d := by
  unfold advance at h
  split at h
  · rename_i d ready hs hr
    exact ⟨d, ready, hs, hr, (Option.some.inj h).symm⟩
  · cases h

theorem advance_eq_none : r.advance = none ↔ r.started = false ∨ r.ready = [] := by
  unfold advance
  cases r.started <;> cases r.ready <;> simp

theorem advance_spec (h : r.advance = some s) (ho : r.backlog.Ordered) :
    s.backlog.Ordered ∧ s.toil < r.toil := by
  obtain ⟨d, ready, hs, hr, rfl⟩ := advance_eq_some h
  have hout := receive_outcome { r with ready } d
  have hagenda : weigh r.agenda = d.message.weight + weigh { r with ready }.agenda := by
    simp [agenda, hr]
  have hqueued : weigh r.queued = d.message.weight + weigh { r with ready }.queued := by
    simp [queued, hr]
  have hpos := d.message.weight_pos
  have hle := d.message.weight_le
  obtain ⟨own, hsends⟩ := hout.sends (hle.trans (by decide))
  refine ⟨(hsends.load ho).1, ?_⟩
  have hload := (hsends.load ho).2
  have hlater (hp : r.progress < ({ r with ready }.receive d).progress) :
      ({ r with ready }.receive d).toil < r.toil :=
    toil_lt_of_stage (stage_lt hp) (by omega) (by omega)
  cases hout with
  | calm hs hf hw ha => exact toil_lt_of_agenda hf.stage (by have := (hs.load ho).2; omega) (by omega)
  | rise h => exact hlater h.progress
  | enter h => exact hlater h.progress

theorem settle_keep {P : Replica σ → Prop} (hP : ∀ r s, P r → r.advance = some s → P s) (steps : Nat)
    (hr : P r) : P (settle steps r) := by
  induction steps generalizing r with
  | zero => exact hr
  | succ steps ih =>
    rw [settle]
    split
    · exact hr
    · rename_i s hs
      exact ih (hP r s hr hs)

theorem settle_advance (ho : r.backlog.Ordered) {steps : Nat} (hn : r.toil ≤ steps) :
    (settle steps r).advance = none := by
  induction steps generalizing r with
  | zero =>
    cases ha : r.advance with
    | none => exact ha
    | some s => exact absurd (advance_spec ha ho).2 (by omega)
  | succ steps ih =>
    cases ha : r.advance with
    | none => simp only [settle, ha]
    | some s =>
      simp only [settle, ha]
      obtain ⟨hs, hlt⟩ := advance_spec ha ho
      exact ih hs (by omega)

theorem settled_advance (ho : r.backlog.Ordered) : r.settled.advance = none :=
  settle_advance ho (toil_le_settleLimit r)

structure Idle (r : Replica σ) : Prop where
  ready : r.started = true → r.ready = []
  ordered : r.backlog.Ordered

theorem settled_idle (ho : r.backlog.Ordered) : r.settled.Idle where
  ready hs := (advance_eq_none.mp (settled_advance ho)).resolve_left fun h => nomatch h.symm.trans hs
  ordered := settle_keep (P := fun r => r.backlog.Ordered) (fun _ _ ho ha => (advance_spec ha ho).1)
    r.settleLimit ho

theorem dispatch_sends (r : Replica σ) (i : Input) : ∃ own, Sends r (r.dispatch i) own 4 := by
  cases i with
  | request b =>
    obtain ⟨own, ho, hh⟩ := handleRequest_offers r b
    exact ⟨own, (ho.sends hh).mono (by decide)⟩
  | message d =>
    have hle := d.message.weight_le
    exact (receive_outcome r d).sends (hle.trans (by decide))
  | timeout view => exact (handleTimeout_outcome r view).sends (by decide)
  | headMoved => exact (startRound_outcome (k := 1) next?_zero (.inl rfl) Nat.one_pos).sends (by decide)

theorem handle_idle (hr : r.Idle) (i : Input) : (r.handle i).Idle := by
  unfold handle
  split
  · obtain ⟨own, hsends⟩ := dispatch_sends r i
    exact settled_idle (hsends.load hr.ordered).1
  · split
    · exact ⟨hr.ready, hr.ordered⟩
    · exact hr

theorem start_idle (hr : r.Idle) : r.start.Idle := by
  unfold start
  split
  · exact hr
  · obtain ⟨own, hsends⟩ := (startRound_outcome (r := { r with started := true }) (k := 1)
      next?_zero (.inl rfl) Nat.one_pos).sends (by decide)
    exact settled_idle (hsends.load hr.ordered).1

omit [Scheme] [Ledger σ] in
theorem stop_idle (hr : r.Idle) : r.stop.Idle := ⟨fun _ => rfl, hr.ordered⟩

theorem create_idle {signer : Signer} {ledger : σ} {archive : Archive} {gossip : Gossip}
    {timer : Timer} {capacity : Nat}
    (hc : create signer ledger archive gossip timer capacity = .ok r) : r.Idle := by
  obtain ⟨-, -, -, -, -, -, hready, hbacklog, -⟩ := create_spec hc
  exact ⟨fun _ => hready, hbacklog ▸ Backlog.empty_ordered capacity⟩

/-- The replica is told something only when nothing is left to process. -/
def Moment.orderly (m : Moment σ) : Bool :=
  match m.event with
  | .start | .stop | .input _ => m.before.ready.isEmpty
  | _ => true

omit [Scheme] [Ledger σ] in
theorem Moment.orderly_of_idle {m : Moment σ} (h : m.before.Idle ∨ m.event = .process)
    (hs : m.before.started = true) : m.orderly = true := by
  unfold orderly
  rcases h with h | h
  · split <;> simp [h.ready hs]
  · rw [h]

theorem handle_orderly (hr : r.Idle) (i : Input) :
    ∃ h, Run r h (r.handle i) ∧ ∀ m ∈ h, m.before.started = true → m.orderly = true := by
  obtain ⟨h, hrun, he⟩ := handle_run r i
  refine ⟨h, hrun, fun m hm => Moment.orderly_of_idle ((he m hm).imp_left ?_)⟩
  rintro rfl
  exact hr

theorem start_orderly (hr : r.Idle) :
    ∃ h, Run r h r.start ∧ ∀ m ∈ h, m.before.started = true → m.orderly = true := by
  obtain ⟨h, hrun, he⟩ := start_run r
  refine ⟨h, hrun, fun m hm => Moment.orderly_of_idle ((he m hm).imp_left ?_)⟩
  rintro rfl
  exact hr

/-- An event with all that becomes ready by it. -/
def perform (r : Replica σ) : Event σ → Replica σ
  | .start => r.start
  | .input i => r.handle i
  | e => r.react e

theorem perform_orderly (hr : r.Idle) (e : Event σ) :
    (∃ h, Run r h (r.perform e) ∧ ∀ m ∈ h, m.before.started = true → m.orderly = true) ∧
      (r.perform e).Idle := by
  have hone : ∃ h, Run r h (r.react e) ∧ ∀ m ∈ h, m.before.started = true → m.orderly = true :=
    ⟨[⟨r, e⟩], .step e .nil, by simpa using Moment.orderly_of_idle (m := ⟨r, e⟩) (.inl hr)⟩
  cases e with
  | start => exact ⟨start_orderly hr, start_idle hr⟩
  | input i => exact ⟨handle_orderly hr i, handle_idle hr i⟩
  | stop => exact ⟨hone, stop_idle hr⟩
  | process =>
    have hnone : r.advance = none := advance_eq_none.mpr <| by
      cases hs : r.started with
      | false => exact .inl rfl
      | true => exact .inr (hr.ready hs)
    refine ⟨hone, ?_⟩
    simp only [perform, react, hnone, Option.getD_none]
    exact hr
  | lookup number hash => exact ⟨hone, hr.ready, hr.ordered⟩
  | replace ledger => exact ⟨hone, hr.ready, hr.ordered⟩

theorem performs_orderly (hr : r.Idle) (es : List (Event σ)) :
    (∃ h, Run r h (es.foldl perform r) ∧ ∀ m ∈ h, m.before.started = true → m.orderly = true) ∧
      (es.foldl perform r).Idle := by
  induction es generalizing r with
  | nil => exact ⟨⟨[], .nil, by simp⟩, hr⟩
  | cons e es ih =>
    obtain ⟨⟨h, hrun, ho⟩, hidle⟩ := perform_orderly hr e
    obtain ⟨⟨k, hrun', ho'⟩, hidle'⟩ := ih hidle
    refine ⟨⟨k ++ h, hrun.append hrun', fun m hm => ?_⟩, hidle'⟩
    exact (List.mem_append.mp hm).elim (ho' m) (ho m)

end Replica

end BlockAgreement
