import BlockAgreement.Proofs.Replica.Progress
import BlockAgreement.Proofs.Replica.Shelf

/-!
# What is left over when the view changes

Whoever enters a view takes out of the backlog what is for a lower one. Whoever asks for a higher round
does not, so that messages for lower rounds may wait until a round is entered. They are for the height
of the replica, and for no view below the one that it has left.
-/

set_option autoImplicit false

namespace BlockAgreement

namespace Shelf

variable {current view : View} {waiting : Bool} {phase : Phase} {kind : MessageKind}

theorem not_lt_of_early (h : checkView current waiting phase kind view = .error .futureMessage) :
    ¬ view < current := by
  intro hlt
  have hnot : ¬ current < view := fun hgt => View.lt_irrefl _ (View.lt_trans hlt hgt)
  have hsequence : ¬ current.sequence < view.sequence := fun hgt => hnot (.inl hgt)
  simp [checkView, hlt, hnot, hsequence] at h

theorem not_lt_of_keep (h : disposition current waiting phase view kind = .keep) : ¬ view < current := by
  unfold disposition at h
  split at h
  · cases h
  · exact not_lt_of_early ‹_›
  · cases h

def Tidy (s : Shelf) : Prop :=
  ∀ current ∈ s.view, ∀ e ∈ s.backlog.toList, e.1 < current →
    s.waiting = true ∧ e.1.sequence = current.sequence

variable {heard : Option Delivery} {s t : Shelf}

theorem Step.tidy (h : Step heard s t) (hs : s.Tidy) : t.Tidy := by
  cases h with
  | enter view waiting phase =>
    rintro _ ⟨⟩ e he hlt
    exact absurd hlt (not_lt_of_keep (Backlog.mem_toList_drain he).2)
  | @ask view round hv hr =>
    rintro _ ⟨⟩ e he hlt
    refine ⟨rfl, ?_⟩
    by_cases hold : e.1 < view
    · exact (hs view hv e he hold).2
    · -- what is not below the view that is left, but below the new one, is between two rounds of
      -- one height
      rw [View.lt_iff, not_or] at hold
      exact (hlt.resolve_left hold.1).1
  | @store d current view hd ha hv hf =>
    intro other hother e he hlt
    obtain rfl := Option.some.inj (hv.symm.trans hother)
    rcases Backlog.mem_toList_insert he with rfl | he
    · exact absurd hlt (not_lt_of_early hf)
    · exact hs _ hv e he hlt

theorem Step.subset (h : Step none s t) : t.backlog.toList ⊆ s.backlog.toList := by
  cases h with
  | enter view waiting phase => exact fun e he => (Backlog.mem_toList_drain he).1
  | ask hv hr => exact List.Subset.refl _
  | store hd => cases hd

end Shelf

namespace Replica

variable {σ : Type} {r s : Replica σ} {heard : Option Delivery} {d : Delivery} {e : View × Delivery}

theorem Shelves.tidy (hs : Shelves heard r s) (hr : r.shelf.Tidy) : s.shelf.Tidy := by
  unfold Shelves at hs
  generalize s.shelf = q at hs
  induction hs with
  | refl => exact hr
  | tail _ hstep ih => exact hstep.tidy ih

theorem Shelves.subset (hs : Shelves none r s) : s.backlog.toList ⊆ r.backlog.toList := by
  unfold Shelves at hs
  change s.shelf.backlog.toList ⊆ r.shelf.backlog.toList
  generalize s.shelf = q at hs
  induction hs with
  | refl => exact List.Subset.refl _
  | tail _ hstep ih => exact fun e he => ih (hstep.subset he)

variable [Scheme] [Ledger σ] {start : Replica σ} {h : List (Moment σ)}

omit [Scheme] [Ledger σ] in
theorem postpone_stores (hearly : r.Early d.message) (he : e ∈ (r.postpone d).backlog.toList) :
    e ∈ r.backlog.toList ∨ ∃ current ∈ r.view?, ¬ e.1 < current := by
  obtain ⟨about, ha, hcheck⟩ := hearly
  rcases postpone_eq r d with hpost | ⟨view, backlog, hview, hins, hpost⟩ <;> rw [hpost] at he
  · exact .inl he
  · obtain rfl : view = about := Except.ok.inj (hview.symm.trans ha.view)
    obtain rfl : (r.backlog.insert view d).2 = backlog := by rw [hins]
    rcases Backlog.mem_toList_insert he with rfl | he
    · obtain ⟨current, hcurrent⟩ : ∃ current, r.view? = some current := by
        refine Option.ne_none_iff_exists'.mp fun hnone => ?_
        simp [checkMessage, hnone] at hcheck
      simp only [checkMessage, hcurrent] at hcheck
      exact .inr ⟨current, hcurrent, Shelf.not_lt_of_early hcheck⟩
    · exact .inl he

theorem receive_stores : e ∈ (r.receive d).backlog.toList →
    e ∈ r.backlog.toList ∨ ∃ current ∈ r.view?, ¬ e.1 < current := by
  have hp : Shelves none r (r.process d.message).2 := process_shelves r d.message
  refine receive_induction (P := fun s => e ∈ s.backlog.toList →
      e ∈ r.backlog.toList ∨ ∃ current ∈ r.view?, ¬ e.1 < current) r d
    (fun he => .inl (hp.subset he)) (fun s hs he => ?_) (fun s hfuture _ _ => ?_)
    fun s reason hs he => ?_
  · exact hs ((relay_remains s d.payload).shelves.subset he)
  · obtain ⟨rfl, hearly⟩ := process_early hfuture
    exact postpone_stores hearly
  · exact hs ((drop_remains s d.message reason).shelves.subset he)

theorem react_stores {event : Event σ} (he : e ∈ (r.react event).backlog.toList) :
    e ∈ r.backlog.toList ∨ ∃ current ∈ r.view?, ¬ e.1 < current := by
  rcases react_or r event with ⟨d, ready, heq⟩ | hs
  · rw [heq] at he
    exact receive_stores (r := { r with ready }) he
  · exact .inl (hs.subset he)

theorem Run.tidy (hr : Run start h r) (hs : start.shelf.Tidy) : r.shelf.Tidy := by
  induction hr with
  | nil => exact hs
  | step e _ ih =>
    obtain ⟨heard, hshelves⟩ := react_shelves _ e
    exact hshelves.tidy ih

/-- A replica does not fall behind a view that it has been in. -/
theorem Run.view_not_lt (hr : Run start h r) {m : Moment σ} (hm : m ∈ h) :
    ∀ old ∈ m.before.view?, ∀ current ∈ r.view?, ¬ current < old := by
  have hle : m.before.progress ≤ r.progress := by
    induction hr with
    | nil => cases hm
    | @step h s e hr ih =>
      have hstep : s.progress ≤ (s.react e).progress := (Moment.advances ⟨s, e⟩).le
      rcases List.mem_cons.mp hm with rfl | hm
      · exact hstep
      · exact (ih hm).trans hstep
  intro old hold current hcurrent hlt
  rw [progress_eq hold, progress_eq hcurrent, WithBot.coe_le_coe] at hle
  exact not_lt_of_ge hle (Progress.of_lt_of.mpr (.inl hlt))

/-- What waits is not for a lower view than one in which nothing was for a lower view. -/
theorem Run.floor (hr : Run start h r) {m : Moment σ} (hm : m ∈ h) {old : View}
    (hv : m.before.view? = some old) (hold : ∀ e ∈ m.before.backlog.toList, ¬ e.1 < old) :
    ∀ e ∈ r.backlog.toList, ¬ e.1 < old := by
  induction hr with
  | nil => cases hm
  | @step h s event hr ih =>
    intro e he hlt
    rcases react_stores he with he | ⟨current, hcurrent, hnot⟩
    · rcases List.mem_cons.mp hm with rfl | hm
      · exact hold e he hlt
      · exact ih hm e he hlt
    · rcases List.mem_cons.mp hm with rfl | hm
      · obtain rfl := Option.some.inj (hv.symm.trans hcurrent)
        exact hnot hlt
      · by_cases hlater : old < current
        · exact hnot (View.lt_trans hlt hlater)
        · have hfallen := hr.view_not_lt hm old hv current hcurrent
          exact hnot (View.eq_of_not_lt hfallen hlater ▸ hlt)

/-- In every run, a message that waits is for a lower view than the replica's only while the replica
waits for a round change, and then it is for the same height. It is for no lower view than any that the
replica has been in without waiting. -/
theorem stale_only_while_waiting {signer : Signer} {ledger : σ} {archive : Archive} {gossip : Gossip}
    {timer : Timer} {capacity : Nat}
    (hc : create signer ledger archive gossip timer capacity = .ok start) (hr : Run start h r) :
    ∀ view d, (view, d) ∈ r.backlog.toList →
      (∀ current ∈ r.view?, view < current → r.waiting = true ∧ view.sequence = current.sequence) ∧
      ∀ m ∈ h, m.before.waiting = false → ∀ entered ∈ m.before.view?, ¬ view < entered := by
  obtain ⟨-, -, -, -, -, -, -, hbacklog, -⟩ := create_spec hc
  have hnone : start.shelf.backlog.toList = [] := by
    rw [shelf, hbacklog]
    rfl
  have htidy : start.shelf.Tidy := by simp [Shelf.Tidy, hnone]
  intro view d hd
  refine ⟨fun current hv => (hr.tidy htidy) current hv (view, d) hd, fun m hm hw entered hv => ?_⟩
  obtain ⟨k, hbefore, -⟩ := hr.before hm
  refine hr.floor hm hv (fun e he hlt => ?_) (view, d) hd
  have hwaits := ((hbefore.tidy htidy) entered hv e he hlt).1
  exact absurd (hw.symm.trans hwaits) (by simp)

end Replica

namespace Pair

open Replica

attribute [local instance] Scheme.plain

def overdueEvents : List (Event MemoryLedger) :=
  promptEvents ++ [.input (.timeout ⟨1, 0⟩), .process]

/-- While it waits for round 1, the Prepare of round 0 waits too. -/
theorem stale_only_while_waiting_overdue : ∃ start, replica first = .ok start ∧
    ∃ c, Message.prepare second subject = some c ∧
      (⟨1, 0⟩, ⟨c, Wire.encode c⟩) ∈ (overdueEvents.foldl react start).backlog.toList ∧
      (overdueEvents.foldl react start).view? = some ⟨1, 1⟩ ∧
      (overdueEvents.foldl react start).waiting = true := by
  obtain ⟨start, hstart, hsome, hstale⟩ := exists_replica (k := first)
    (P := fun start => (Message.prepare second subject).isSome ∧
      ∀ c ∈ Message.prepare second subject,
        (⟨1, 0⟩, ⟨c, Wire.encode c⟩) ∈ (overdueEvents.foldl react start).backlog.toList ∧
          (overdueEvents.foldl react start).view? = some ⟨1, 1⟩)
    (by decide +kernel)
  obtain ⟨c, hc⟩ := Option.isSome_iff_exists.mp hsome
  obtain ⟨hwaits, hview⟩ := hstale c hc
  obtain ⟨honly, -⟩ := stale_only_while_waiting hstart (moments_run start overdueEvents) ⟨1, 0⟩
    ⟨c, Wire.encode c⟩ hwaits
  exact ⟨start, hstart, c, hc, hwaits, hview, (honly ⟨1, 1⟩ hview (by decide)).1⟩

def cramped : Except HeaderFault (Replica MemoryLedger) :=
  Replica.create first (.ofHeaders [genesis]) (.empty 100 .roundRobin 8) (.empty 8 8) (.idle 10 20) 1

def crampedEvents : List (Event MemoryLedger) :=
  overdueEvents ++ hear (Message.ofPreprepare second ⟨⟨1, 1⟩, block⟩)

/-- The Prepare of round 0 takes up the room, and the proposal for round 1 is dropped. -/
theorem stale_takes_room : ∃ start, cramped = .ok start ∧
    (crampedEvents.foldl react start).started = true ∧ (crampedEvents.foldl react start).ready = [] ∧
    (∃ d, (crampedEvents.foldl react start).backlog.toList = [(⟨1, 0⟩, d)]) ∧
    (crampedEvents.foldl react start).view? = some ⟨1, 1⟩ ∧ (⟨1, 0⟩ : View) < ⟨1, 1⟩ ∧
    (start.moments crampedEvents).head?.map Moment.shown =
      some [.notify (.dropMessage second.address .preprepare (toString Rejection.futureMessage))] := by
  obtain ⟨start, hstart, hstarted, hready, hstale, hview, hshown⟩ := exists_ok (x := cramped)
    (P := fun start => (crampedEvents.foldl react start).started = true ∧
      (crampedEvents.foldl react start).ready = [] ∧
      (crampedEvents.foldl react start).backlog.toList.map (·.1) = [⟨1, 0⟩] ∧
      (crampedEvents.foldl react start).view? = some ⟨1, 1⟩ ∧
      (start.moments crampedEvents).head?.map Moment.shown =
        some [.notify (.dropMessage second.address .preprepare (toString Rejection.futureMessage))])
    (by decide +kernel)
  obtain ⟨⟨view, d⟩, he, hv⟩ := List.map_eq_singleton_iff.mp hstale
  obtain rfl : view = ⟨1, 0⟩ := hv
  exact ⟨start, hstart, hstarted, hready, ⟨d, he⟩, hview, by decide, hshown⟩

end Pair

end BlockAgreement
