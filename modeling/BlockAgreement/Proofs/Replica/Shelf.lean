import BlockAgreement.Proofs.Replica.Decision
import BlockAgreement.Proofs.Replica.Standing

/-!
# No message is left behind

Messages wait in the backlog for a view or phase that has not come. Whenever a replica enters a view or a
phase it takes out what can be processed there, and to ask for a higher round makes nothing ready. So what
waits can never be processed where the replica is.
-/

set_option autoImplicit false

namespace BlockAgreement

/-- The message can be read, and it is about this view. -/
structure Message.About (m : Message) (about : View) : Prop where
  view : m.view = .ok about
  proposal : m.kind = .preprepare → ∃ p, m.preprepare = .ok p ∧ p.view = about
  subject : m.kind ≠ .preprepare → ∃ x, m.subject = .ok x ∧ x.view = about

theorem Message.Names.about {m : Message} {view : View} (h : m.Names view) : m.About view := by
  cases h with
  | @proposal p hk hp =>
    exact ⟨Message.view_of_preprepare hp, fun _ => ⟨p, hp, rfl⟩, fun hne => absurd hk hne⟩
  | @subject x hk hx => exact ⟨Message.view_of_subject hx, fun he => absurd he hk, fun _ => ⟨x, hx, rfl⟩⟩

namespace Backlog

variable {b : Backlog} {e : View × Delivery}

theorem mem_toList : e ∈ b.toList ↔ ∃ q ∈ b.queues, e.1 = q.1.view ∧ e.2 ∈ q.2 := by
  simp only [toList, List.mem_flatMap, List.mem_map]
  constructor
  · rintro ⟨q, hq, d, hd, rfl⟩
    exact ⟨q, hq, rfl, hd⟩
  · rintro ⟨q, hq, hv, hd⟩
    exact ⟨q, hq, e.2, hd, by rw [← hv]⟩

theorem mem_toList_push {slot : Slot} {d : Delivery} (he : e ∈ (b.push slot d).toList) :
    e = (slot.view, d) ∨ e ∈ b.toList := by
  obtain ⟨q, hq, hv, hd⟩ := mem_toList.mp he
  rcases SortedMap.mem_insert hq with rfl | hq
  · rcases List.mem_append.mp hd with hd | hd
    · cases hf : b.queues.find? slot with
      | none => simp [hf] at hd
      | some ds =>
        have hds := hf
        rw [SortedMap.find?, Option.map_eq_some_iff] at hf
        obtain ⟨p, hp, rfl⟩ := hf
        have hslot := List.find?_some hp
        have hslot : p.1 = slot := of_decide_eq_true hslot
        rw [hds] at hd
        exact .inr (mem_toList.mpr ⟨p, List.mem_of_find?_eq_some hp, hslot ▸ hv, hd⟩)
    · exact .inl (Prod.ext hv (List.mem_singleton.mp hd))
  · exact .inr (mem_toList.mpr ⟨q, hq, hv, hd⟩)

theorem mem_toList_evict (he : e ∈ b.evict.toList) : e ∈ b.toList := by
  unfold evict at he
  split at he
  · exact he
  · rename_i slot ds hl
    obtain ⟨q, hq, hv, hd⟩ := mem_toList.mp he
    rcases List.mem_append.mp hq with hq | hq
    · exact mem_toList.mpr ⟨q, List.dropLast_subset _ hq, hv, hd⟩
    · split at hq
      · simp at hq
      · rw [List.mem_singleton] at hq
        subst hq
        exact mem_toList.mpr ⟨_, List.mem_of_getLast? hl, hv, List.dropLast_subset _ hd⟩

theorem mem_toList_insert {view : View} {d : Delivery} (he : e ∈ (b.insert view d).2.toList) :
    e = (view, d) ∨ e ∈ b.toList := by
  unfold insert at he
  dsimp only at he
  split at he
  · exact mem_toList_push he
  · split at he
    · exact .inr he
    · split at he
      · exact (mem_toList_push he).imp_right mem_toList_evict
      · exact .inr he

theorem mem_toList_drain {classify : View → MessageKind → Disposition}
    (he : e ∈ (b.drain classify).2.toList) :
    e ∈ b.toList ∧ classify e.1 e.2.message.kind = .keep := by
  obtain ⟨q, hq, hv, hd⟩ := mem_toList.mp he
  obtain ⟨p, hp, rfl⟩ := List.mem_map.mp (List.mem_filter.mp hq).1
  obtain ⟨hd, hkeep⟩ := List.mem_filter.mp hd
  exact ⟨mem_toList.mpr ⟨p, hp, hv, hd⟩, hv ▸ of_decide_eq_true hkeep⟩

end Backlog

structure Shelf where
  view : Option View
  waiting : Bool
  phase : Phase
  backlog : Backlog

namespace Shelf

inductive Step (heard : Option Delivery) : Shelf → Shelf → Prop where
  /-- A view or a phase is entered, and what can be processed there does not wait any more. -/
  | enter {s : Shelf} (view : View) (waiting : Bool) (phase : Phase) :
      Step heard s ⟨some view, waiting, phase, (s.backlog.drain (disposition view waiting phase)).2⟩
  /-- The replica asks for a higher round. What waits stays. -/
  | ask {s : Shelf} {view : View} {round : Round} (hv : s.view = some view) (hr : view.round < round) :
      Step heard s { s with view := some ⟨view.sequence, round⟩, waiting := true }
  /-- A message that comes too early is stored, if there is room for it. -/
  | store {s : Shelf} {d : Delivery} {current view : View} (hd : heard = some d)
      (ha : d.message.About view) (hv : s.view = some current)
      (hf : checkView current s.waiting s.phase d.message.kind view = .error .futureMessage) :
      Step heard s { s with backlog := (s.backlog.insert view d).2 }

structure Timely (s : Shelf) : Prop where
  filed : ∀ e ∈ s.backlog.toList, e.2.message.About e.1
  early : ∀ current ∈ s.view, ∀ e ∈ s.backlog.toList,
    checkView current s.waiting s.phase e.2.message.kind e.1 ≠ .ok ()

theorem checkView_ask {current view : View} {waiting : Bool} {phase : Phase} {kind : MessageKind}
    {round : Round} (hr : current.round < round)
    (h : checkView current waiting phase kind view ≠ .ok ()) :
    checkView ⟨current.sequence, round⟩ true phase kind view ≠ .ok () := by
  intro hok
  by_cases hk : kind = .roundChange
  · refine h ?_
    simp only [checkView, if_pos hk] at hok ⊢
    split at hok
    · cases hok
    · rename_i hle
      split at hok
      · cases hok
      · rename_i hge
        have hlt : current < ⟨current.sequence, round⟩ := .inr ⟨rfl, hr⟩
        rw [if_neg hle, if_neg fun hold => hge (View.lt_trans hold hlt)]
  · exact absurd (checkView_ok hk hok).2.1 (by simp)

variable {heard : Option Delivery} {s t : Shelf}

theorem Step.timely (h : Step heard s t) (hs : s.Timely) : t.Timely := by
  cases h with
  | enter view waiting phase =>
    refine ⟨fun e he => hs.filed e (Backlog.mem_toList_drain he).1, ?_⟩
    rintro _ ⟨⟩ e he hok
    have hkeep := (Backlog.mem_toList_drain he).2
    rw [disposition, hok] at hkeep
    cases hkeep
  | ask hv hr =>
    refine ⟨hs.filed, ?_⟩
    rintro _ ⟨⟩ e he
    exact checkView_ask hr (hs.early _ hv e he)
  | @store d current view hd ha hv hf =>
    refine ⟨fun e he => ?_, fun u hu e he => ?_⟩
    · rcases Backlog.mem_toList_insert he with rfl | he
      · exact ha
      · exact hs.filed e he
    · obtain rfl := Option.some.inj (hv.symm.trans hu)
      rcases Backlog.mem_toList_insert he with rfl | he
      · exact fun hok => by
          have hcontra := hf.symm.trans hok
          cases hcontra
      · exact hs.early _ hv e he

end Shelf

namespace Replica

open Relation

variable {σ : Type}

def shelf (r : Replica σ) : Shelf := ⟨r.view?, r.waiting, r.phase, r.backlog⟩

def Shelves (heard : Option Delivery) (r s : Replica σ) : Prop :=
  ReflTransGen (Shelf.Step heard) r.shelf s.shelf

variable {heard : Option Delivery} {r s t : Replica σ} {own : List Message} {a b : Attempt}
  {phase : Phase}

theorem shelves_of_eq (h : s.shelf = r.shelf) : Shelves heard r s := by
  rw [Shelves, h]

theorem Shelves.trans (hs : Shelves heard r s) (ht : Shelves heard s t) : Shelves heard r t :=
  ReflTransGen.trans hs ht

theorem Remains.shelves (h : Remains r s own) : Shelves heard r s :=
  shelves_of_eq (by rw [shelf, shelf, h.view, h.waiting, h.phase, h.backlog])

theorem Shelves.refl (r : Replica σ) : Shelves heard r r := (Remains.refl r).shelves

section Views

variable [Scheme]

theorem enterPhase_shelves (view : View) (hv : s.view? = some view) (hb : s.backlog = r.backlog)
    (phase : Phase) : Shelves heard r (s.enterPhase phase) := by
  obtain ⟨timer, ht⟩ := extendTime_eq s phase
  have hreplay {t : Replica σ} (ht : t.view? = some view) (hbt : t.backlog = r.backlog) :
      Shelves heard r t.replay := by
    have heq : t.replay.shelf = ⟨some view, t.waiting, t.phase,
        (r.backlog.drain (disposition view t.waiting t.phase)).2⟩ := by
      simp only [replay, ht, ← hbt]
      exact congrArg (Shelf.mk · t.waiting t.phase _) ht
    rw [Shelves, heq]
    exact .single (.enter view t.waiting t.phase)
  unfold enterPhase
  dsimp only
  rw [ht]
  split
  · obtain ⟨own, ho, -⟩ := takeHeld_remains { s with timer, phase }
    exact hreplay (ho.view.trans hv) (ho.backlog.trans hb)
  · exact hreplay hv hb

theorem sendRoundChange_shelves (r : Replica σ) (round : Round) :
    Shelves heard r (r.sendRoundChange round) := by
  unfold sendRoundChange
  split
  · exact .refl r
  · rename_i current hv
    split
    · rename_i hr
      have hshelf : (r.catchUp ⟨current.sequence, round⟩).shelf =
          { r.shelf with view := some ⟨current.sequence, round⟩, waiting := true } := by
        rw [shelf, catchUp_view]
        rfl
      have hask : Shelves heard r (r.catchUp ⟨current.sequence, round⟩) := by
        rw [Shelves, hshelf]
        exact .single (.ask hv hr)
      exact hask.trans (broadcast_remains _ _ _).shelves
    · exact .refl r

theorem sendNextRoundChange_shelves (r : Replica σ) : Shelves heard r r.sendNextRoundChange := by
  unfold sendNextRoundChange
  split
  · exact .refl r
  · exact sendRoundChange_shelves r _

theorem enterView_shelves (hb : s.backlog = r.backlog) (head : Header) (a : Attempt) :
    Shelves heard r (s.enterView head a) :=
  enterPhase_shelves a.view (by rfl) (by exact hb) .newRound

omit [Scheme] in
theorem announceView_shelves (r : Replica σ) (view : View) : Shelves heard r (r.announceView view) :=
  (announceView_remains r view).shelves

variable [Ledger σ]

theorem startRound_shelves (r : Replica σ) (round : Round) :
    Shelves heard r (r.startRound round) := by
  have hsequence (head : Header) (sequence : Height) :
      Shelves heard r (r.startSequence head sequence) := by
    obtain ⟨archive, committee, new, he, -⟩ := refreshCommittee_eq r head
    have hb : (r.refreshCommittee head).backlog = r.backlog := by rw [he]
    exact (enterView_shelves hb head _).trans (announceView_shelves _ _)
  refine startRound_induction r round (fun sequence _ _ => hsequence _ sequence) (fun a _ _ _ _ => ?_)
    (fun _ _ _ _ _ _ => .refl r) fun _ => shelves_of_eq (by rfl)
  obtain ⟨own, ho, -⟩ := proposeAgain_remains (r.enterView (Ledger.head r.ledger) _)
  exact ((enterView_shelves rfl _ _).trans ho.shelves).trans (announceView_shelves _ _)

theorem handleTimeout_shelves (r : Replica σ) (view : View) :
    Shelves heard r (r.handleTimeout view) := by
  have htold : Shelves heard r (r.notify (.viewTimeout view)) := (notify_remains r _).shelves
  refine handleTimeout_induction r view (fun _ => .refl r) (fun round _ _ _ _ => ?_) (fun _ _ => ?_)
    fun _ _ _ => ?_
  · exact htold.trans (sendRoundChange_shelves _ round)
  · exact htold.trans (startRound_shelves _ 0)
  · exact htold.trans (sendNextRoundChange_shelves _)

end Views

section Votes

variable [Scheme] {m : Message} {archive : Archive}

theorem voting_shelves : Shelves heard r (r.voting archive a phase) :=
  enterPhase_shelves a.view (by rfl) (by rfl) phase

theorem decided_shelves {x : Block} : Shelves heard r (r.decided a x) :=
  voting_shelves.trans (emit_remains _ _).shelves

theorem finalized_shelves {x : Block} {ledger : σ} : Shelves heard r (r.finalized a x ledger) :=
  Shelves.trans (s := r.decided a x) decided_shelves (shelves_of_eq rfl)

theorem released_shelves {x : Block} : Shelves heard r (r.released a x) :=
  decided_shelves.trans (attempt_remains (decided_attempt r a x) (by rfl)).shelves

variable [Ledger σ]

theorem Treats.shelves {v : Except Rejection Unit} (h : r.Treats m v s) : Shelves heard r s := by
  have harchive (archive : Archive) : Shelves heard r { r with archive } :=
    (archive_remains r archive).shelves
  have hcounted (roundChanges : RoundChanges) : Shelves heard r { r with roundChanges } :=
    shelves_of_eq rfl
  cases h with
  | refuse => exact .refl r
  | consult => exact harchive _
  | answer =>
    obtain ⟨own, ho, -⟩ := sendCommitFor_remains _ _
    exact (harchive _).trans ho.shelves
  | object => exact (harchive _).trans (sendNextRoundChange_shelves _)
  | accept =>
    obtain ⟨own, ho, -⟩ := sendPrepare_remains _
    exact voting_shelves.trans ho.shelves
  | support =>
    obtain ⟨own, ho, -⟩ := sendCommit_remains _
    exact voting_shelves.trans ho.shelves
  | countPrepare hc => exact (attempt_remains hc.attempt (by rfl)).shelves
  | lock =>
    obtain ⟨own, ho, -⟩ := sendCommit_remains _
    exact voting_shelves.trans ho.shelves
  | countCommit hc => exact (attempt_remains hc.attempt (by rfl)).shelves
  | finalize => exact finalized_shelves.trans (startRound_shelves _ 0)
  | release => exact released_shelves.trans (sendNextRoundChange_shelves _)
  | tally => exact hcounted _
  | join => exact (hcounted _).trans (sendRoundChange_shelves _ _)
  | enter => exact (hcounted _).trans (startRound_shelves _ _)

theorem process_shelves (r : Replica σ) (m : Message) : Shelves heard r (r.process m).2 :=
  (process_treats r m).shelves

end Votes

section Inputs

variable [Scheme] {m : Message} {d : Delivery}

def Early (r : Replica σ) (m : Message) : Prop :=
  ∃ view, m.About view ∧ r.checkMessage m.kind view = .error .futureMessage

variable [Ledger σ]

theorem process_early (h : r.process m = (.error .futureMessage, s)) : s = r ∧ r.Early m := by
  obtain ⟨hs, view, hview, hcheck⟩ := process_future h
  exact ⟨hs, view, hview.about, hcheck⟩

omit [Scheme] [Ledger σ] in
theorem postpone_shelves (h : r.Early d.message) : Shelves (some d) r (r.postpone d) := by
  rcases postpone_eq r d with he | ⟨view, backlog, hview, hins, he⟩
  · rw [he]
    exact (drop_remains r _ _).shelves
  · obtain ⟨about, ha, hc⟩ := h
    obtain rfl : view = about := Except.ok.inj (hview.symm.trans ha.view)
    obtain rfl : (r.backlog.insert view d).2 = backlog := by rw [hins]
    rw [he]
    cases hv : r.view? with
    | none => simp [checkMessage, hv] at hc
    | some current =>
      simp only [checkMessage, hv] at hc
      exact .single (.store rfl ha hv hc)

theorem receive_shelves (r : Replica σ) (d : Delivery) : Shelves (some d) r (r.receive d) := by
  refine receive_induction r d (process_shelves r d.message) (fun s hs => ?_) (fun s hfuture _ _ => ?_)
    fun s e hs => ?_
  · exact hs.trans (relay_remains s _).shelves
  · obtain ⟨rfl, hearly⟩ := process_early hfuture
    exact postpone_shelves hearly
  · exact hs.trans (drop_remains s _ e).shelves

/-- A replica receives a message, or its shelf changes without one. -/
theorem react_or (r : Replica σ) (e : Event σ) :
    (∃ d ready, r.react e = ({ r with ready } : Replica σ).receive d) ∨ Shelves none r (r.react e) := by
  have hsame {s : Replica σ} (h : s.shelf = r.shelf) :
      (∃ d ready, s = ({ r with ready } : Replica σ).receive d) ∨ Shelves none r s :=
    .inr (shelves_of_eq h)
  cases e with
  | start =>
    unfold react
    dsimp only
    split
    · exact hsame rfl
    · exact .inr
        (Shelves.trans (shelves_of_eq (by rfl)) (startRound_shelves { r with started := true } 0))
  | stop => exact hsame rfl
  | input i =>
    unfold react
    dsimp only
    split
    · cases i with
      | request b =>
        obtain ⟨own, ho, -⟩ := handleRequest_remains r b
        exact .inr ho.shelves
      | message d => exact .inl ⟨d, r.ready, rfl⟩
      | timeout view => exact .inr (handleTimeout_shelves r view)
      | headMoved => exact .inr (startRound_shelves r 0)
    · cases i with
      | message d => exact .inr (drop_remains r _ _).shelves
      | _ => exact hsame rfl
  | process =>
    cases ha : r.advance with
    | none =>
      rw [react, ha]
      exact hsame rfl
    | some s =>
      obtain ⟨d, ready, -, -, rfl⟩ := advance_eq_some ha
      rw [react, ha]
      exact .inl ⟨d, ready, rfl⟩
  | lookup number hash => exact hsame rfl
  | replace ledger => exact hsame rfl

/-- Whatever happens to a replica, its shelf changes by steps. -/
theorem react_shelves (r : Replica σ) (e : Event σ) : ∃ heard, Shelves heard r (r.react e) := by
  rcases react_or r e with ⟨d, ready, he⟩ | hs
  · rw [he]
    exact ⟨some d, Shelves.trans (shelves_of_eq rfl) (receive_shelves { r with ready } d)⟩
  · exact ⟨none, hs⟩

end Inputs

section

variable [Scheme] [Ledger σ] {start : Replica σ} {h : List (Moment σ)}

omit [Scheme] [Ledger σ] in
theorem Shelves.timely (hs : Shelves heard r s) (hr : r.shelf.Timely) : s.shelf.Timely := by
  unfold Shelves at hs
  generalize s.shelf = q at hs
  induction hs with
  | refl => exact hr
  | tail _ hstep ih => exact hstep.timely ih

theorem Run.timely (hr : Run start h r) (hs : start.shelf.Timely) : r.shelf.Timely := by
  induction hr with
  | nil => exact hs
  | step e _ ih =>
    obtain ⟨heard, hshelves⟩ := react_shelves _ e
    exact hshelves.timely ih

/-- Every message that waits is stored under the view that its body names, and it cannot be processed in
the view and phase of the replica. -/
theorem nothing_left_behind {signer : Signer} {ledger : σ} {archive : Archive} {gossip : Gossip}
    {timer : Timer} {capacity : Nat}
    (hc : create signer ledger archive gossip timer capacity = .ok start) (hr : Run start h r) :
    ∀ view d, (view, d) ∈ r.backlog.toList → d.message.About view ∧
      ∀ current ∈ r.view?, checkView current r.waiting r.phase d.message.kind view ≠ .ok () := by
  obtain ⟨-, -, -, -, -, -, -, hbacklog, -⟩ := create_spec hc
  have hnone : start.shelf.backlog.toList = [] := by
    rw [shelf, hbacklog]
    rfl
  have htimely := hr.timely ⟨by simp [hnone], by simp [hnone]⟩
  exact fun view d hd => ⟨htimely.filed _ hd, fun current hv => htimely.early current hv _ hd⟩

end

end Replica

namespace Pair

open Replica

attribute [local instance] Scheme.plain

def promptEvents : List (Event MemoryLedger) := [.start] ++ hear (Message.prepare second subject)

/-- The Prepare waits, and there is still no proposal for which it could be counted. -/
theorem nothing_left_behind_prompt : ∃ start, replica first = .ok start ∧
    ∃ c, Message.prepare second subject = some c ∧
      (⟨1, 0⟩, ⟨c, Wire.encode c⟩) ∈ (promptEvents.foldl react start).backlog.toList ∧
      c.About ⟨1, 0⟩ ∧ ∀ current ∈ (promptEvents.foldl react start).view?,
        checkView current (promptEvents.foldl react start).waiting
          (promptEvents.foldl react start).phase c.kind ⟨1, 0⟩ ≠ .ok () := by
  obtain ⟨start, hstart, hsome, hwaits⟩ := exists_replica (k := first)
    (P := fun start => (Message.prepare second subject).isSome ∧
      ∀ c ∈ Message.prepare second subject,
        (⟨1, 0⟩, ⟨c, Wire.encode c⟩) ∈ (promptEvents.foldl react start).backlog.toList)
    (by decide +kernel)
  obtain ⟨c, hc⟩ := Option.isSome_iff_exists.mp hsome
  exact ⟨start, hstart, c, hc, hwaits c hc,
    nothing_left_behind hstart (moments_run start promptEvents) ⟨1, 0⟩ ⟨c, Wire.encode c⟩ (hwaits c hc)⟩

end Pair

end BlockAgreement
