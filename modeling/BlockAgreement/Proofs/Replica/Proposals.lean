import BlockAgreement.Proofs.Replica.Settling

/-!
# A replica proposes once in a view

A proposal is made where a view is entered, or when a block is asked for, and the replica processes its
own proposal next, which takes it to a later phase or round. So every view that it proposes in is higher
than those before. A replica that waits for its view to begin is an exception: it proposes there every
block that it is asked for.
-/

set_option autoImplicit false

namespace BlockAgreement

namespace Message

def proposals (cs : List Message) : List Preprepare :=
  (cs.filter (·.kind = .preprepare)).filterMap (·.preprepare.toOption)

theorem mem_proposals {cs : List Message} {p : Preprepare} :
    p ∈ proposals cs ↔ ∃ c ∈ cs, c.kind = .preprepare ∧ c.preprepare = .ok p := by
  have hok (e : Except DecodeError Preprepare) : e.toOption = some p ↔ e = .ok p := by
    cases e <;> simp [Except.toOption]
  simp [proposals, hok, and_assoc]

theorem proposals_length_le (cs : List Message) : (proposals cs).length ≤ cs.length :=
  (List.length_filterMap_le _ _).trans (List.length_filter_le _ _)

theorem proposals_of_weigh {cs : List Message} (h : weigh cs ≤ 1) : proposals cs = [] := by
  rw [proposals, List.filter_eq_nil_iff.mpr, List.filterMap_nil]
  intro c hc hk
  have hle := weigh_sublist (List.singleton_sublist.mpr hc)
  rw [weigh_cons, weight_preprepare (of_decide_eq_true hk)] at hle
  omega

end Message

namespace Replica

variable {σ : Type} [Scheme] {r s : Replica σ} {c : Message} {p : Preprepare} {own : List Message}

namespace Proposal

theorem kind (h : Proposal r c) : c.kind = .preprepare := by
  obtain ⟨view, b, -, hc⟩ := h.signed
  exact (Message.signed_spec hc).1

theorem view (h : Proposal r c) (hp : c.preprepare = .ok p) : r.view? = some p.view := by
  obtain ⟨view, b, hv, hc⟩ := h.signed
  rw [hv, Message.preprepare_view hc hp]

theorem entry (h : Proposal r c) (hp : c.preprepare = .ok p) (hw : r.waiting = false) :
    (Progress.entry p.view : WithBot Progress) = r.progress := by
  rw [progress_eq (h.view hp), hw, h.fresh]
  rfl

end Proposal

omit [Scheme] in
theorem checkView_self (view : View) (phase : Phase) :
    checkView view false phase .preprepare view = .ok () := by
  simp [checkView, View.lt_irrefl]

section Own

variable [Ledger σ] {d : Delivery}

theorem receive_own (hd : d.message.sender = r.signer.address) :
    ∃ effects, r.receive d = { (r.process d.message).2 with effects } := by
  unfold receive
  simp only [hd, decide_true, if_true]
  split <;> rename_i hs <;> rw [hs] <;> exact ⟨_, rfl⟩

/-- A replica that has proposed a block does not stay where it is: it accepts the proposal or asks for
the next round. -/
theorem handlePreprepare_progress (hs : r.Sound) (hw : r.waiting = false) (hc : Proposal r c)
    (hp : c.preprepare = .ok p) (hsender : c.sender = r.signer.address) :
    r.progress < (r.handlePreprepare c).2.progress := by
  have hv := hc.view hp
  obtain ⟨a, ha, -⟩ := Option.map_eq_some_iff.mp hv
  have hcheck : r.checkMessage .preprepare p.view = .ok () := by
    simp only [checkMessage, hv, hw]
    exact checkView_self _ _
  have hprop : r.committee.isProposer c.sender = true := hsender ▸ hc.proposer
  obtain ⟨archive, hver, -⟩ := verifyProposal_spec r p.proposal
  have hnext : Rises { r with archive } ({ r with archive } : Replica σ).sendNextRoundChange :=
    sendNextRoundChange_rises hv (hs.endless hw _ hv)
  unfold handlePreprepare
  simp only [hp, hcheck, hprop, Bool.not_true, Bool.false_eq_true, if_false]
  split
  · rename_i e t he
    rw [he] at hver
    obtain rfl : t = { r with archive } := hver
    exact hnext.progress
  · rename_i t he
    rw [he] at hver
    obtain rfl : t = { r with archive } := hver
    dsimp only
    rw [if_pos hc.fresh]
    rcases acceptProposal_or (r := { r with archive }) ha hw hc.fresh p with h | h
    · exact h.progress
    · rw [h]
      exact hnext.progress

theorem receive_progress (hk : r.signer.Honest) (hs : r.Sound) (hw : r.waiting = false)
    (hc : Proposal r d.message) (hp : d.message.preprepare = .ok p) :
    r.progress < (r.receive d).progress := by
  obtain ⟨view, b, -, hsigned⟩ := hc.signed
  obtain ⟨hkind, -, hsender⟩ := Message.signed_spec hsigned
  have hmember : r.committee.contains d.message.sender = true := by
    rw [hsender]
    exact Committee.contains_iff.mpr (r.committee.proposer_mem _ (beq_iff_eq.mp hc.proposer))
  have hprocess : r.process d.message = r.handlePreprepare d.message := by
    simp [process, Message.verify_signed hk hsigned, hmember, hkind]
  obtain ⟨effects, heq⟩ := receive_own hsender
  rw [heq, hprocess]
  exact handlePreprepare_progress hs hw hc hp hsender

end Own

section Events

variable [Ledger σ]

theorem request_offers (r : Replica σ) (b : Block) :
    ∃ own, Offers r (r.react (.input (.request b))) own ∧
      (r.HoldsLater → (r.react (.input (.request b))).HoldsLater) := by
  unfold react
  dsimp only
  split
  · exact handleRequest_offers r b
  · exact ⟨[], (Silent.refl r).offers, id⟩

/-- What comes of any other event. It may start or stop the replica before, or make it take up the next
message. -/
theorem react_outcome (r : Replica σ) {e : Event σ} (he : ∀ b, e ≠ .input (.request b)) :
    ∃ q, Frame r q ∧ q.held = r.held ∧ q.effects = r.effects ∧ Outcome 2 q (r.react e) ∧
      (r.agenda = q.agenda ∨ e = .stop ∧ q.agenda = [] ∨
        ∃ d ready, r.ready = d :: ready ∧ q = { r with ready } ∧ r.react e = q.receive d) := by
  have hstays {s : Replica σ} (h : Outcome 2 r s) : ∃ q, Frame r q ∧ q.held = r.held ∧
      q.effects = r.effects ∧ Outcome 2 q s ∧ (r.agenda = q.agenda ∨ e = .stop ∧ q.agenda = [] ∨
        ∃ d ready, r.ready = d :: ready ∧ q = { r with ready } ∧ s = q.receive d) :=
    ⟨r, .refl r, rfl, rfl, h, .inl rfl⟩
  -- most events begin with the replica as it is, and the others are to start, to stop and to take up
  -- a message
  have hsilent {s : Replica σ} (hs : Silent r s) := hstays (hs.calm (by decide))
  cases e with
  | start =>
    unfold react
    dsimp only
    split
    · exact hsilent (.refl r)
    · exact ⟨{ r with started := true }, ⟨rfl, rfl, rfl, rfl, rfl⟩, rfl, rfl,
        startRound_outcome next?_zero (.inl rfl) (by decide), .inl rfl⟩
  | stop =>
    exact ⟨r.stop, ⟨rfl, rfl, rfl, rfl, rfl⟩, rfl, rfl, (Silent.refl r.stop).calm (by decide),
      .inr (.inl ⟨rfl, rfl⟩)⟩
  | input i =>
    unfold react
    dsimp only
    split
    · cases i with
      | request b => exact absurd rfl (he b)
      | message d => exact hstays ((receive_outcome r d).mono d.message.weight_le)
      | timeout view => exact hstays ((handleTimeout_outcome r view).mono (by decide))
      | headMoved => exact hstays (startRound_outcome next?_zero (.inl rfl) (by decide))
    · cases i with
      | message d => exact hsilent (drop_silent _ _ _)
      | _ => exact hsilent (.refl r)
  | process =>
    unfold react
    cases ha : r.advance with
    | none => exact hsilent (.refl r)
    | some s =>
      obtain ⟨d, ready, -, hr, rfl⟩ := advance_eq_some ha
      exact ⟨{ r with ready }, ⟨rfl, rfl, rfl, rfl, rfl⟩, rfl, rfl,
        (receive_outcome _ d).mono d.message.weight_le, .inr (.inr ⟨d, ready, hr, rfl, rfl⟩)⟩
  | lookup number hash => exact hsilent (archive_silent r _)
  | replace ledger => exact hsilent (silent_of_eq rfl rfl rfl rfl rfl ⟨rfl, rfl, rfl, rfl, rfl⟩)

/-- Whatever happens to a replica, it stays sound. -/
theorem react_sound (e : Event σ) (hr : r.Sound) : (r.react e).Sound := by
  by_cases he : ∃ b, e = .input (.request b)
  · obtain ⟨b, rfl⟩ := he
    obtain ⟨own, ho, hheld⟩ := request_offers r b
    exact hr.of_frame ho.toFrame hheld
  · obtain ⟨q, hframe, hheld, -, hout, -⟩ := react_outcome r (e := e) (by simpa using he)
    exact hout.sound (hr.of_frame hframe fun hh => hh.of_eq hframe.view hheld)

theorem Run.sound {start : Replica σ} {h : List (Moment σ)} (hn : start.view? = none)
    (hr : Run start h r) : r.Sound := by
  induction hr with
  | nil => exact ⟨fun view hv => by simp [hn] at hv, fun _ view hv => by simp [hn] at hv⟩
  | step e _ ih => exact react_sound e ih

end Events

/-- What a replica holds to after its proposals: it has left their views, or it has just proposed and
has its proposal to process. -/
structure Proposed (r : Replica σ) (log : List Preprepare) : Prop where
  honest : r.signer.Honest
  sound : r.Sound
  pending : ∀ p ∈ log, (Progress.entry p.view : WithBot Progress) < r.progress ∨
    r.waiting = false ∧ ∃ c ∈ r.agenda, Proposal r c ∧ c.preprepare = .ok p
  ordered : log.Pairwise fun later earlier => earlier.view < later.view

namespace Proposed

variable {log : List Preprepare}

theorem entry_le (h : Proposed r log) (hp : p ∈ log) :
    (Progress.entry p.view : WithBot Progress) ≤ r.progress := by
  rcases h.pending p hp with hlt | ⟨hw, c, -, hc, hread⟩
  · exact hlt.le
  · exact (hc.entry hread hw).le

theorem of_frame (h : Proposed r log) (hf : Frame r s) (hs : s.Sound) (ha : r.agenda ⊆ s.agenda) :
    Proposed s log where
  honest := hf.signer ▸ h.honest
  sound := hs
  pending p hp := by
    rw [hf.progress]
    refine (h.pending p hp).imp_right ?_
    rintro ⟨hw, c, hc, hprop, hread⟩
    exact ⟨hf.waiting.trans hw, c, ha hc, hprop.of_frame hf, hread⟩
  ordered := h.ordered

theorem propose (hk : s.signer.Honest) (hs : s.Sound)
    (hlt : ∀ p ∈ log, (Progress.entry p.view : WithBot Progress) < s.progress)
    (ho : log.Pairwise fun later earlier => earlier.view < later.view) (hone : own.length ≤ 1)
    (hprop : ∀ c ∈ own, Proposal s c) (hw : s.waiting = false) (htaken : ∀ c ∈ own, c ∈ s.agenda) :
    Proposed s (Message.proposals own ++ log) where
  honest := hk
  sound := hs
  pending p hp := by
    rcases List.mem_append.mp hp with hp | hp
    · obtain ⟨c, hc, -, hread⟩ := Message.mem_proposals.mp hp
      exact .inr ⟨hw, c, htaken c hc, hprop c hc, hread⟩
    · exact .inl (hlt p hp)
  ordered := by
    refine List.pairwise_append.mpr ⟨?_, ho, fun q hq p hp => ?_⟩
    · have hle := (Message.proposals_length_le own).trans hone
      match Message.proposals own, hle with
      | [], _ => exact .nil
      | [q], _ => exact List.pairwise_singleton _ q
    · obtain ⟨c, hc, -, hread⟩ := Message.mem_proposals.mp hq
      have hlt := hlt p hp
      rw [← (hprop c hc).entry hread hw] at hlt
      exact Progress.entry_lt_entry.mp (WithBot.coe_lt_coe.mp hlt)

theorem of_outcome {k : Nat} (h : Outcome k r s) (hk : k ≤ 2) (honest : r.signer.Honest)
    (hs : r.Sound) (ho : log.Pairwise fun later earlier => earlier.view < later.view)
    (hle : ∀ p ∈ log, (Progress.entry p.view : WithBot Progress) ≤ r.progress)
    (hcalm : ¬ r.progress < s.progress → Proposed r log) :
    ∃ new, s.effects = new ++ r.effects ∧
      Proposed s (Message.proposals (Effect.broadcasts new) ++ log) := by
  have hleft (hlt : r.progress < s.progress) : ∀ p ∈ log,
      (Progress.entry p.view : WithBot Progress) < s.progress := fun p hp => (hle p hp).trans_lt hlt
  cases h with
  | calm hsends hf hw ha =>
    obtain ⟨new, he, hown⟩ := hsends.shown
    refine ⟨new, he, ?_⟩
    rw [hown, Message.proposals_of_weigh (by omega), List.nil_append]
    have hstay : ¬ r.progress < s.progress := by
      rw [hf.progress]
      exact lt_irrefl _
    exact (hcalm hstay).of_frame hf (hsends.sound hs) hsends.agenda.subset
  | rise h =>
    obtain ⟨own, hsends, hw⟩ := h.sends
    obtain ⟨new, he, hown⟩ := hsends.shown
    refine ⟨new, he, ?_⟩
    rw [hown, Message.proposals_of_weigh hw, List.nil_append]
    exact ⟨hsends.signer ▸ honest, hsends.sound hs, fun p hp => .inl (hleft h.progress p hp), ho⟩
  | enter h =>
    obtain ⟨own, hsends, hone, hprop⟩ := h.sends
    obtain ⟨new, he, hown⟩ := hsends.shown
    refine ⟨new, he, ?_⟩
    rw [hown]
    exact propose (hsends.signer ▸ honest) (hsends.sound hs) (hleft h.progress) ho (hone hs) hprop
      h.active hsends.taken

theorem outcome {k : Nat} (h : Proposed r log) (ho : Outcome k r s) (hk : k ≤ 2) :
    ∃ new, s.effects = new ++ r.effects ∧
      Proposed s (Message.proposals (Effect.broadcasts new) ++ log) :=
  of_outcome ho hk h.honest h.sound h.ordered (fun _ => h.entry_le) fun _ => h

end Proposed

namespace Moment

variable [Ledger σ] {m : Moment σ}

omit [Scheme] [Ledger σ] in
/-- The replica is asked for a block while it waits for its view to begin. -/
def premature (m : Moment σ) : Bool :=
  m.before.waiting && match m.event with
    | .input (.request _) => true
    | _ => false

def proposals (m : Moment σ) : List Preprepare := Message.proposals m.signed

theorem signed_of_effects {e : Event σ} {new : List Effect}
    (h : (r.react e).effects = new ++ r.effects) :
    (⟨r, e⟩ : Moment σ).signed = Effect.broadcasts new := by
  rw [signed, shown_of_leads (m := ⟨r, e⟩) h]
  rfl

/-- A proposal is for the view in which the replica still is. It has begun there, unless the replica was
asked too early. -/
theorem mem_proposals (hp : p ∈ m.proposals) : (∃ c, Proposal m.after c ∧ c.preprepare = .ok p) ∧
    (m.premature = false → m.after.waiting = false) := by
  obtain ⟨c, hc, hkind, hread⟩ := Message.mem_proposals.mp hp
  obtain ⟨r, e⟩ := m
  by_cases he : ∃ b, e = .input (.request b)
  · obtain ⟨b, rfl⟩ := he
    obtain ⟨own, hoff, -⟩ := request_offers r b
    obtain ⟨new, heff, rfl⟩ := hoff.shown
    rw [signed_of_effects heff] at hc
    refine ⟨⟨c, hoff.proposals c hc, hread⟩, fun hp => hoff.waiting.trans ?_⟩
    simpa [premature] using hp
  · obtain ⟨q, hf, hheld, heff, hout, hq⟩ := react_outcome r (by simpa using he)
    have hnot {own : List Message} (hown : c ∈ own) : ¬ weigh own ≤ 1 := fun hw => by
      have hmem := Message.mem_proposals.mpr ⟨c, hown, hkind, hread⟩
      rw [Message.proposals_of_weigh hw] at hmem
      cases hmem
    cases hout with
    | calm hs hf hw ha =>
      obtain ⟨new, hnew, rfl⟩ := hs.shown
      rw [signed_of_effects (heff ▸ hnew)] at hc
      exact absurd (Nat.le_of_lt_succ hw) (hnot hc)
    | rise h =>
      obtain ⟨own, hs, hw⟩ := h.sends
      obtain ⟨new, hnew, rfl⟩ := hs.shown
      rw [signed_of_effects (heff ▸ hnew)] at hc
      exact absurd hw (hnot hc)
    | enter h =>
      obtain ⟨own, hs, -, hprop⟩ := h.sends
      obtain ⟨new, hnew, rfl⟩ := hs.shown
      rw [signed_of_effects (heff ▸ hnew)] at hc
      exact ⟨⟨c, hprop c hc, hread⟩, fun _ => h.active⟩

end Moment

namespace Proposed

variable [Ledger σ] {log : List Preprepare}

theorem request (h : Proposed r log) {b : Block}
    (ho : (⟨r, .input (.request b)⟩ : Moment σ).orderly = true) :
    ∃ new, (r.react (.input (.request b))).effects = new ++ r.effects ∧
      Proposed (r.react (.input (.request b)))
        ((if r.waiting then [] else Message.proposals (Effect.broadcasts new)) ++ log) := by
  obtain ⟨own, hoff, hheld⟩ := request_offers r b
  obtain ⟨new, he, hown⟩ := hoff.shown
  have hsound := h.sound.of_frame hoff.toFrame hheld
  refine ⟨new, he, ?_⟩
  rw [hown]
  split
  · exact h.of_frame hoff.toFrame hsound hoff.agenda.subset
  · rename_i hw
    have hready : r.agenda = [] := by simpa [Moment.orderly, agenda] using ho
    refine propose (hoff.signer ▸ h.honest) hsound (fun p hp => ?_) h.ordered hoff.length_le
      hoff.proposals (hoff.waiting.trans (by simpa using hw)) hoff.taken
    rw [hoff.progress]
    refine (h.pending p hp).resolve_right ?_
    rintro ⟨-, c, hc, -⟩
    rw [hready] at hc
    cases hc

theorem other (h : Proposed r log) {e : Event σ} (ho : (⟨r, e⟩ : Moment σ).orderly = true)
    (he : ∀ b, e ≠ .input (.request b)) :
    ∃ new, (r.react e).effects = new ++ r.effects ∧
      Proposed (r.react e) (Message.proposals (Effect.broadcasts new) ++ log) := by
  obtain ⟨q, hf, hheld, heff, hout, hq⟩ := react_outcome r he
  have hsound : q.Sound := h.sound.of_frame hf fun hh => hh.of_eq hf.view hheld
  have hkeep (ha : r.agenda ⊆ q.agenda) := (h.of_frame hf hsound ha).outcome hout (Nat.le_refl _)
  rw [← heff]
  rcases hq with hq | ⟨rfl, -⟩ | ⟨d, ready, hready, rfl, hs⟩
  · exact hkeep (hq ▸ List.Subset.refl _)
  · have hready : r.agenda = [] := by simpa [Moment.orderly, agenda] using ho
    exact hkeep (hready ▸ List.nil_subset _)
  · refine of_outcome hout (Nat.le_refl _) (hf.signer ▸ h.honest) hsound h.ordered
      (fun p hp => hf.progress ▸ h.entry_le hp) fun hstay => ?_
    refine ⟨hf.signer ▸ h.honest, hsound, fun p hp => ?_, h.ordered⟩
    rw [hf.progress]
    refine (h.pending p hp).imp_right ?_
    rintro ⟨hw, c, hc, hprop, hread⟩
    have hw := hf.waiting.trans hw
    have hprop := hprop.of_frame hf
    rw [agenda, hready] at hc
    rcases List.mem_cons.mp hc with rfl | hc
    · -- the replica does not stay where it is when it processes its own proposal
      have hlt := receive_progress (hf.signer ▸ h.honest) hsound hw hprop hread
      exact absurd hlt (hs ▸ hstay)
    · exact ⟨hw, c, hc, hprop, hread⟩

theorem moment {m : Moment σ} (h : Proposed m.before log) (ho : m.orderly = true) :
    Proposed m.after ((if m.premature then [] else m.proposals) ++ log) := by
  obtain ⟨r, e⟩ := m
  by_cases he : ∃ b, e = .input (.request b)
  · obtain ⟨b, rfl⟩ := he
    obtain ⟨new, heff, hnew⟩ := request h ho
    rw [Moment.proposals, Moment.signed_of_effects heff, Moment.premature, Bool.and_true]
    exact hnew
  · have hp : (⟨r, e⟩ : Moment σ).premature = false := by
      unfold Moment.premature
      split <;> simp_all
    obtain ⟨new, heff, hnew⟩ := other h ho (by simpa using he)
    rw [hp, if_neg Bool.false_ne_true, Moment.proposals, Moment.signed_of_effects heff]
    exact hnew

end Proposed

section Run

variable [Ledger σ] {start : Replica σ} {h : List (Moment σ)}

theorem create_proposed {signer : Signer} {ledger : σ} {archive : Archive} {gossip : Gossip}
    {timer : Timer} {capacity : Nat} (hk : signer.Honest)
    (hc : create signer ledger archive gossip timer capacity = .ok start) : Proposed start [] := by
  obtain ⟨-, -, hsigner, -, -, hn, -⟩ := create_spec hc
  have hview : start.view? = none := by rw [view?, hn]; rfl
  refine ⟨hsigner ▸ hk, ⟨fun view hv => ?_, fun _ view hv => ?_⟩, by simp, .nil⟩ <;>
    simp [hview] at hv

theorem Run.proposed (hr : Run start h r) (hs : Proposed start [])
    (ho : ∀ m ∈ h, m.orderly = true) :
    Proposed r ((h.filter fun m => !m.premature).flatMap Moment.proposals) := by
  induction hr with
  | nil => exact hs
  | @step h r e _ ih =>
    have hstep : Proposed (r.react e) _ :=
      (ih fun m hm => ho m (List.mem_cons_of_mem _ hm)).moment (m := ⟨r, e⟩) (ho _ List.mem_cons_self)
    rw [List.filter_cons]
    cases hp : (⟨r, e⟩ : Moment σ).premature <;> simpa [hp] using hstep

/-- An honest replica that is told one thing after the other proposes in higher and higher views, and so
once in each, unless it is asked for a block while it waits for its view to begin. -/
theorem proposals_ascend {signer : Signer} {ledger : σ} {archive : Archive} {gossip : Gossip}
    {timer : Timer} {capacity : Nat} (hk : signer.Honest)
    (hc : create signer ledger archive gossip timer capacity = .ok start) (hr : Run start h r)
    (ho : ∀ m ∈ h, m.orderly = true) :
    ((h.filter fun m => !m.premature).flatMap Moment.proposals).Pairwise
      fun later earlier => earlier.view < later.view :=
  (hr.proposed (create_proposed hk hc) ho).ordered

end Run

end Replica

namespace Pair

open Replica

attribute [local instance] Scheme.plain

/-- The first of two validators proposes the block in the first view. -/
theorem proposals_ascend_first : ∃ start, replica first = .ok start ∧
    (∀ m ∈ start.moments firstEvents, m.orderly = true) ∧
    ((start.moments firstEvents).filter fun m => !m.premature).flatMap Moment.proposals =
      [⟨⟨1, 0⟩, block⟩] ∧
    (((start.moments firstEvents).filter fun m => !m.premature).flatMap Moment.proposals).Pairwise
      fun later earlier => earlier.view < later.view := by
  obtain ⟨start, hc, ho, hp⟩ := exists_replica (k := first) (P := fun start =>
    (∀ m ∈ start.moments firstEvents, m.orderly = true) ∧
    ((start.moments firstEvents).filter fun m => !m.premature).flatMap Moment.proposals =
      [⟨⟨1, 0⟩, block⟩]) (by decide +kernel)
  exact ⟨start, hc, ho, hp,
    proposals_ascend (Signer.plain_honest 1) hc (moments_run start firstEvents) ho⟩

def hastyEvents : List (Event MemoryLedger) :=
  [.start, .input (.timeout ⟨1, 0⟩), .process, .input (.timeout ⟨1, 1⟩), .process,
    .input (.request block), .process, .input (.request (.create block.header [8])), .process]

/-- It proposes both of them there. -/
theorem proposals_differ_hasty : ∃ start, replica first = .ok start ∧
    (∀ m ∈ start.moments hastyEvents, m.orderly = true) ∧
    ∃ p ∈ (start.moments hastyEvents).flatMap Moment.proposals,
      ∃ q ∈ (start.moments hastyEvents).flatMap Moment.proposals,
        p.view = q.view ∧ p.proposal.hash ≠ q.proposal.hash :=
  exists_replica (by decide +kernel)

end Pair

end BlockAgreement
