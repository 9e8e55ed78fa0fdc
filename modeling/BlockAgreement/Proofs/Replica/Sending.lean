import BlockAgreement.Proofs.Replica.Backlog
import BlockAgreement.Proofs.Replica.Progress
import BlockAgreement.Proofs.Replica.Votes

/-!
# What a replica sends, and what it has to process then

Whatever a replica broadcasts it has to process itself: it is ready then, behind everything that was
ready before. A proposal is broadcast where a view is entered or a block is asked for, and the replica
still is in that view then, without an accepted proposal.
-/

set_option autoImplicit false

namespace BlockAgreement

def Effect.broadcasts (es : List Effect) : List Message :=
  es.filterMap fun
    | .broadcast c => some c
    | _ => none

theorem Effect.broadcasts_append (es fs : List Effect) :
    broadcasts (es ++ fs) = broadcasts es ++ broadcasts fs := List.filterMap_append

namespace Replica

variable {σ : Type} {r s t : Replica σ} {own later : List Message} {n k : Nat}

def agenda (r : Replica σ) : List Message := r.ready.map (·.message)

def HoldsLater (r : Replica σ) : Prop := ∀ view ∈ r.view?, ∀ e ∈ r.held, view.sequence < e.1

structure Sound (r : Replica σ) : Prop where
  held : r.HoldsLater
  endless : r.waiting = false → ∀ view ∈ r.view?, next? view.round ≠ none

/-- From `r` to `s` these messages were broadcast, newest first, and they are ready now. What is queued
has become heavier by `n` at most. -/
structure Says (r s : Replica σ) (own : List Message) (n : Nat) : Prop where
  started : s.started = true → r.started = true
  shown : ∃ new, s.effects = new ++ r.effects ∧ Effect.broadcasts new = own
  agenda : r.agenda <+: s.agenda
  taken : ∀ c ∈ own, c ∈ s.agenda
  load : r.backlog.Ordered → s.backlog.Ordered ∧ weigh s.queued ≤ weigh r.queued + n

theorem Says.trans (hs : Says r s own n) (ht : Says s t later k) : Says r t (later ++ own) (n + k) where
  started h := hs.started (ht.started h)
  shown := by
    obtain ⟨es, he, hes⟩ := hs.shown
    obtain ⟨fs, hf, hfs⟩ := ht.shown
    exact ⟨fs ++ es, by rw [hf, he, List.append_assoc], by rw [Effect.broadcasts_append, hes, hfs]⟩
  agenda := hs.agenda.trans ht.agenda
  taken c hc := by
    rcases List.mem_append.mp hc with hc | hc
    · exact ht.taken c hc
    · exact ht.agenda.subset (hs.taken c hc)
  load ho := by
    obtain ⟨ho, hw⟩ := hs.load ho
    obtain ⟨ho, hw'⟩ := ht.load ho
    exact ⟨ho, by omega⟩

theorem Says.mono (hs : Says r s own n) (hn : n ≤ k) : Says r s own k :=
  ⟨hs.started, hs.shown, hs.agenda, hs.taken, fun ho => ⟨(hs.load ho).1, (hs.load ho).2.trans (by omega)⟩⟩

theorem says_nil (new : List Effect) (hs : s.started = r.started)
    (he : s.effects = new ++ r.effects) (hn : Effect.broadcasts new = []) (hr : s.ready = r.ready)
    (hb : s.backlog = r.backlog) : Says r s [] 0 where
  started h := hs ▸ h
  shown := ⟨new, he, hn⟩
  agenda := ⟨[], by rw [agenda, agenda, hr, List.append_nil]⟩
  taken := by simp
  load ho := ⟨hb ▸ ho, by rw [queued, queued, hr, hb]; exact Nat.le_refl _⟩

theorem says_of_eq (hs : s.started = r.started) (he : s.effects = r.effects)
    (hr : s.ready = r.ready) (hb : s.backlog = r.backlog) : Says r s [] 0 :=
  says_nil [] hs (by rw [he, List.nil_append]) rfl hr hb

structure Frame (r s : Replica σ) : Prop where
  signer : s.signer = r.signer
  view : s.view? = r.view?
  waiting : s.waiting = r.waiting
  phase : s.phase = r.phase
  committee : s.committee = r.committee

theorem Frame.refl (r : Replica σ) : Frame r r := ⟨rfl, rfl, rfl, rfl, rfl⟩

theorem Frame.trans (hs : Frame r s) (ht : Frame s t) : Frame r t :=
  ⟨ht.signer.trans hs.signer, ht.view.trans hs.view, ht.waiting.trans hs.waiting,
    ht.phase.trans hs.phase, ht.committee.trans hs.committee⟩

theorem Frame.progress (hf : Frame r s) : s.progress = r.progress := by
  rw [Replica.progress, Replica.progress, hf.view, hf.waiting, hf.phase]

structure Speaks (r s : Replica σ) (own : List Message) (n : Nat) : Prop
    extends Says r s own n, Frame r s where
  held : s.held = r.held

theorem Speaks.trans (hs : Speaks r s own n) (ht : Speaks s t later k) :
    Speaks r t (later ++ own) (n + k) :=
  ⟨hs.toSays.trans ht.toSays, hs.toFrame.trans ht.toFrame, ht.held.trans hs.held⟩

theorem Speaks.refl (r : Replica σ) : Speaks r r [] 0 :=
  ⟨says_of_eq rfl rfl rfl rfl, .refl r, rfl⟩

theorem HoldsLater.of_eq (h : r.HoldsLater) (hv : s.view? = r.view?) (hh : s.held = r.held) :
    s.HoldsLater := by
  rw [HoldsLater, hv, hh]
  exact h

theorem Sound.of_frame (h : r.Sound) (hf : Frame r s) (hh : r.HoldsLater → s.HoldsLater) : s.Sound where
  held := hh h.held
  endless hw := by
    rw [hf.view]
    exact h.endless (hf.waiting ▸ hw)

theorem Speaks.sound (hs : Speaks r s own n) (h : r.Sound) : s.Sound :=
  h.of_frame hs.toFrame fun hh => hh.of_eq hs.view hs.held

structure Silent (r s : Replica σ) : Prop extends Speaks r s [] 0 where
  ready : s.ready = r.ready

theorem silent_of_eq (hs : s.started = r.started) (he : s.effects = r.effects)
    (hr : s.ready = r.ready) (hb : s.backlog = r.backlog) (hh : s.held = r.held) (hf : Frame r s) :
    Silent r s :=
  ⟨⟨says_of_eq hs he hr hb, hf, hh⟩, hr⟩

theorem Silent.refl (r : Replica σ) : Silent r r := ⟨.refl r, rfl⟩

theorem ended_silent (r : Replica σ) : Silent r { r with started := false } where
  started h := nomatch h
  shown := ⟨[], rfl, rfl⟩
  agenda := List.prefix_refl _
  taken := by simp
  load ho := ⟨ho, Nat.le_refl _⟩
  signer := rfl
  view := rfl
  waiting := rfl
  phase := rfl
  committee := rfl
  held := rfl
  ready := rfl

theorem Silent.trans (hs : Silent r s) (ht : Silent s t) : Silent r t :=
  ⟨hs.toSpeaks.trans ht.toSpeaks, ht.ready.trans hs.ready⟩

theorem emit_silent (r : Replica σ) {e : Effect} (he : Effect.broadcasts [e] = []) :
    Silent r (r.emit e) :=
  ⟨⟨says_nil [e] rfl rfl he rfl rfl, ⟨rfl, rfl, rfl, rfl, rfl⟩, rfl⟩, rfl⟩

theorem notify_silent (r : Replica σ) (n : Notice) : Silent r (r.notify n) := emit_silent r rfl

theorem drop_silent (r : Replica σ) (m : Message) (reason : Rejection) : Silent r (r.drop m reason) :=
  emit_silent r rfl

section Outbound

variable [Scheme]

theorem relay_silent (r : Replica σ) (payload : Bytes) : Silent r (r.relay payload) := by
  obtain ⟨gossip, sends, he, hs⟩ := relay_eq r payload
  rw [he]
  refine ⟨⟨says_nil sends rfl rfl ?_ rfl rfl, ⟨rfl, rfl, rfl, rfl, rfl⟩, rfl⟩, rfl⟩
  refine List.filterMap_eq_nil_iff.mpr fun e hm => ?_
  obtain ⟨a, rfl⟩ := hs e hm
  rfl

theorem broadcast_eq (r : Replica σ) (c : Message) (notice : Notice) :
    ∃ gossip sends, r.broadcast (some c) notice = { r with
        gossip
        ready := r.ready ++ [⟨c, Wire.encode c⟩]
        effects := (.notify notice :: (sends ++ [.broadcast c])) ++ r.effects } ∧
      Effect.broadcasts sends = [] ∧ Effect.notices sends = [] := by
  obtain ⟨gossip, sends, he, hs⟩ := relay_eq (r.emit (.broadcast c)) (Wire.encode c)
  refine ⟨gossip, sends, ?_, List.filterMap_eq_nil_iff.mpr fun e hm => ?_,
    List.filterMap_eq_nil_iff.mpr fun e hm => ?_⟩
  · simp only [broadcast]
    rw [he]
    simp [notify, emit]
  · obtain ⟨a, rfl⟩ := hs e hm
    rfl
  · obtain ⟨a, rfl⟩ := hs e hm
    rfl

theorem broadcast_agenda (r : Replica σ) (m : Option Message) (notice : Notice) :
    (r.broadcast m notice).agenda = r.agenda ++ m.toList := by
  cases m with
  | none => exact (List.append_nil _).symm
  | some c =>
    obtain ⟨gossip, sends, he, -⟩ := broadcast_eq r c notice
    rw [he]
    exact List.map_append

theorem broadcast_speaks (r : Replica σ) (m : Option Message) (notice : Notice) :
    Speaks r (r.broadcast m notice) m.toList (weigh m.toList) := by
  have hagenda := broadcast_agenda r m notice
  cases m with
  | none => exact .refl r
  | some c =>
    obtain ⟨gossip, sends, he, hs, -⟩ := broadcast_eq r c notice
    rw [he] at hagenda ⊢
    refine ⟨⟨id, ⟨_, rfl, ?_⟩, ⟨_, hagenda.symm⟩, fun d hd => ?_, fun ho => ⟨ho, ?_⟩⟩,
      ⟨rfl, rfl, rfl, rfl, rfl⟩, rfl⟩
    · rw [← List.singleton_append, Effect.broadcasts_append, Effect.broadcasts_append, hs]
      rfl
    · rw [hagenda]
      exact List.mem_append_right _ hd
    · simp only [queued, List.map_append, weigh_append, Option.toList_some, List.map_cons, List.map_nil]
      omega

theorem broadcast_reports (r : Replica σ) (m : Option Message) (notice : Notice) :
    (r.broadcast m notice).stance = r.stance ∧
      ∃ new, (r.broadcast m notice).effects = new ++ r.effects ∧
        Effect.broadcasts new = m.toList ∧ Effect.notices new = (m.map fun _ => notice).toList := by
  cases m with
  | none => exact ⟨rfl, [], rfl, rfl, rfl⟩
  | some c =>
    obtain ⟨gossip, sends, he, hs, hn⟩ := broadcast_eq r c notice
    rw [he]
    refine ⟨rfl, .notify notice :: (sends ++ [.broadcast c]), rfl, ?_, ?_⟩
    · rw [← List.singleton_append, Effect.broadcasts_append, Effect.broadcasts_append, hs]
      rfl
    · simp only [Effect.notices, List.filterMap_cons, List.filterMap_append]
      rw [show List.filterMap _ sends = [] from hn]
      rfl

structure Proposal (r : Replica σ) (c : Message) : Prop where
  proposer : r.isProposer = true
  fresh : r.phase = .newRound
  signed : ∃ view b, r.view? = some view ∧ Message.ofPreprepare r.signer ⟨view, b⟩ = some c

theorem Proposal.of_frame {c : Message} (h : Proposal r c) (hf : Frame r s) : Proposal s c := by
  obtain ⟨view, b, hv, hc⟩ := h.signed
  refine ⟨?_, hf.phase.trans h.fresh, view, b, hf.view.trans hv, hf.signer ▸ hc⟩
  rw [isProposer, hf.committee, hf.signer]
  exact h.proposer

structure Offers (r s : Replica σ) (own : List Message) : Prop extends Says r s own 2, Frame r s where
  length_le : own.length ≤ 1
  proposals : ∀ c ∈ own, Proposal s c

theorem Silent.offers (h : Silent r s) : Offers r s [] :=
  ⟨h.toSays.mono (Nat.zero_le _), h.toFrame, Nat.zero_le _, by simp⟩

theorem hold_offers (r : Replica σ) (held : SortedMap Height Block) : Offers r { r with held } [] :=
  ⟨(says_of_eq (by rfl) (by rfl) (by rfl) (by rfl)).mono (Nat.zero_le _), ⟨rfl, rfl, rfl, rfl, rfl⟩,
    Nat.zero_le _, by simp⟩

theorem Offers.of_says (hs : Says r s [] 0) (hf : Frame r s) (ht : Offers s t own) : Offers r t own :=
  ⟨by simpa using hs.trans ht.toSays, hf.trans ht.toFrame, ht.length_le, ht.proposals⟩

theorem Offers.trans (hs : Offers r s own) (ht : Says s t [] 0) (hf : Frame s t) : Offers r t own :=
  ⟨by simpa using hs.toSays.trans ht, hs.toFrame.trans hf, hs.length_le,
    fun c hc => (hs.proposals c hc).of_frame hf⟩

theorem sendPreprepare_offers (hn : r.phase = .newRound) (b : Block) :
    ∃ own, Offers r (r.sendPreprepare b) own ∧ (r.sendPreprepare b).held = r.held := by
  unfold sendPreprepare
  split
  · exact ⟨[], (Silent.refl r).offers, rfl⟩
  · rename_i view hv
    split
    · rename_i hp
      have hs := broadcast_speaks r (Message.ofPreprepare r.signer ⟨view, b⟩)
        (.propose view b.hash b.number)
      cases hm : Message.ofPreprepare r.signer ⟨view, b⟩ with
      | none => exact ⟨[], (Silent.refl r).offers, rfl⟩
      | some c =>
        rw [hm] at hs
        have hc : Proposal r c := ⟨hp.2, hn, view, b, hv, hm⟩
        have hw : weigh (some c).toList ≤ 2 := weigh_le _
        refine ⟨[c], ⟨hs.toSays.mono hw, hs.toFrame, Nat.le_refl _, fun d hd => ?_⟩, hs.held⟩
        rw [List.mem_singleton.mp hd]
        exact hc.of_frame hs.toFrame
    · exact ⟨[], (Silent.refl r).offers, rfl⟩

omit [Scheme] in
theorem weigh_toList {m : Option Message} (h : ∀ c ∈ m, c.kind ≠ .preprepare) :
    weigh m.toList ≤ 1 := by
  cases m with
  | none => exact Nat.zero_le _
  | some c => simp [Message.weight, h c rfl]

theorem sendCommitFor_speaks (r : Replica σ) (x : Subject) :
    ∃ own, Speaks r (r.sendCommitFor x) own 1 ∧ weigh own ≤ 1 ∧
      (r.sendCommitFor x).agenda = r.agenda ++ own := by
  have hs := broadcast_speaks r (Message.commit r.signer x) (.commit x)
  have hw := weigh_toList (m := Message.commit r.signer x) fun c hc => by
    rw [(Message.commit_spec hc).1]
    decide
  exact ⟨_, ⟨hs.toSays.mono hw, hs.toFrame, hs.held⟩, hw, broadcast_agenda r _ _⟩

theorem sendCommit_speaks (r : Replica σ) : ∃ own, Speaks r r.sendCommit own 1 ∧ weigh own ≤ 1 := by
  unfold sendCommit
  split
  · exact ⟨[], ⟨(Speaks.refl r).toSays.mono (Nat.zero_le _), .refl r, rfl⟩, Nat.zero_le _⟩
  · obtain ⟨own, ho, hw, -⟩ := sendCommitFor_speaks r _
    exact ⟨own, ho, hw⟩

theorem sendPrepare_speaks (r : Replica σ) : ∃ own, Speaks r r.sendPrepare own 1 ∧ weigh own ≤ 1 := by
  unfold sendPrepare
  split
  · exact ⟨[], ⟨(Speaks.refl r).toSays.mono (Nat.zero_le _), .refl r, rfl⟩, Nat.zero_le _⟩
  · rename_i x _
    have hs := broadcast_speaks r (Message.prepare r.signer x) (.prepare x)
    have hw := weigh_toList (m := Message.prepare r.signer x) fun c hc => by
      rw [(Message.prepare_spec hc).1]
      decide
    exact ⟨_, ⟨hs.toSays.mono hw, hs.toFrame, hs.held⟩, hw⟩

end Outbound

section Views

variable [Scheme]

theorem handleRequest_offers (r : Replica σ) (b : Block) :
    ∃ own, Offers r (r.handleRequest b) own ∧ (r.HoldsLater → (r.handleRequest b).HoldsLater) := by
  unfold handleRequest
  split
  · exact ⟨[], (Silent.refl r).offers, id⟩
  · rename_i a ha
    split
    · rename_i hlt
      refine ⟨[], hold_offers r _, fun h view hv e he => ?_⟩
      rcases SortedMap.mem_insert he with rfl | he
      · obtain rfl := Option.some.inj ((view?_of_attempt ha).symm.trans hv)
        exact hlt
      · exact h view hv e he
    · split
      · exact ⟨[], (Silent.refl r).offers, id⟩
      · have hr : Silent r { r with attempt := some { a with request := some b } } :=
          silent_of_eq rfl rfl rfl rfl rfl ⟨rfl, by simp [view?, ha], rfl, rfl, rfl⟩
        dsimp only
        split
        · rename_i hn
          obtain ⟨own, ho, hh⟩ := sendPreprepare_offers
            (r := { r with attempt := some { a with request := some b } }) hn b
          exact ⟨own, ho.of_says hr.toSays hr.toFrame, fun h =>
            h.of_eq (ho.view.trans hr.view) (hh.trans hr.held)⟩
        · exact ⟨[], hr.offers, fun h => h.of_eq hr.view hr.held⟩

theorem takeHeld_offers (r : Replica σ) :
    ∃ own, Offers r r.takeHeld own ∧ r.takeHeld.HoldsLater ∧ (r.HoldsLater → own = []) := by
  unfold takeHeld
  split
  · rename_i hv
    exact ⟨[], (Silent.refl r).offers, fun view h => by simp [hv] at h, fun _ => rfl⟩
  · rename_i view hv
    let held := SortedMap.erase (r.held.filter fun e => decide (view.sequence ≤ e.1)) view.sequence
    have hlater : ({ r with held } : Replica σ).HoldsLater := by
      intro u hu e he
      obtain rfl := Option.some.inj (hv.symm.trans hu)
      obtain ⟨he, hne⟩ := List.mem_filter.mp he
      have hle : view.sequence ≤ e.1 := of_decide_eq_true (List.mem_filter.mp he).2
      exact UInt64.lt_of_le_of_ne hle fun h => (of_decide_eq_true hne : e.1 ≠ view.sequence) h.symm
    dsimp only
    split
    · exact ⟨[], hold_offers r _, hlater, fun _ => rfl⟩
    · rename_i b hb
      obtain ⟨own, ho, hh⟩ := handleRequest_offers { r with held } b
      have hr : Says r { r with held } [] 0 := says_of_eq rfl rfl rfl rfl
      refine ⟨own, ho.of_says hr (hold_offers r held).toFrame, hh hlater, fun h => ?_⟩
      obtain ⟨e, he, -⟩ := Option.map_eq_some_iff.mp hb
      have hkey := List.find?_some he
      have hkey : e.1 = view.sequence := of_decide_eq_true hkey
      have hlt := h view hv e (List.mem_filter.mp (List.mem_of_find?_eq_some he)).1
      exact absurd (hkey ▸ hlt) (UInt64.lt_irrefl _)

omit [Scheme] in
theorem replay_speaks (r : Replica σ) : Speaks r r.replay [] 0 := by
  unfold replay
  split
  · exact .refl r
  · refine ⟨⟨id, ⟨[], (List.nil_append _).symm, rfl⟩, ?_, by simp, fun ho => ⟨ho.drain _, ?_⟩⟩,
      ⟨rfl, rfl, rfl, rfl, rfl⟩, rfl⟩
    · simp [agenda]
    · rename_i view _
      have := Backlog.weigh_drain r.backlog (disposition view r.waiting r.phase)
      simp only [queued, List.map_append, weigh_append]
      omega

omit [Scheme] in
theorem setPhase_silent (r : Replica σ) (phase : Phase) :
    Silent { r with phase } { r.extendTime phase with phase } := by
  unfold extendTime
  split
  · split
    · exact .refl _
    · exact silent_of_eq rfl rfl rfl rfl rfl ⟨rfl, rfl, rfl, rfl, rfl⟩
  · exact .refl _

theorem enterPhase_speaks (r : Replica σ) (phase : Phase) (hp : phase ≠ .newRound) :
    Speaks { r with phase } (r.enterPhase phase) [] 0 := by
  unfold enterPhase
  dsimp only
  rw [if_neg hp]
  exact (setPhase_silent r phase).toSpeaks.trans (replay_speaks _)

theorem enterPhase_offers (r : Replica σ) :
    ∃ own, Offers { r with phase := .newRound } (r.enterPhase .newRound) own ∧
      (r.enterPhase .newRound).HoldsLater ∧ (r.HoldsLater → own = []) := by
  have hphase := setPhase_silent r .newRound
  obtain ⟨own, ho, hlater, hone⟩ := takeHeld_offers { r.extendTime .newRound with phase := .newRound }
  have hreplay := replay_speaks
    (takeHeld { r.extendTime .newRound with phase := .newRound })
  unfold enterPhase
  dsimp only
  rw [if_pos rfl]
  refine ⟨own, (ho.of_says hphase.toSays hphase.toFrame).trans hreplay.toSays hreplay.toFrame, ?_, ?_⟩
  · exact hlater.of_eq hreplay.view hreplay.held
  · exact fun h => hone (HoldsLater.of_eq (r := { r with phase := .newRound }) h hphase.view hphase.held)

theorem proposeAgain_offers (hn : r.phase = .newRound) :
    ∃ own, Offers r r.proposeAgain own ∧ r.proposeAgain.held = r.held := by
  unfold proposeAgain
  split
  · split
    · exact ⟨[], (Silent.refl r).offers, rfl⟩
    · exact sendPreprepare_offers hn _
  · exact ⟨[], (Silent.refl r).offers, rfl⟩

omit [Scheme] in
theorem announceView_silent (r : Replica σ) (view : View) : Silent r (r.announceView view) := by
  have harm : Silent r { r with timer := r.timer.arm view } :=
    silent_of_eq rfl rfl rfl rfl rfl ⟨rfl, rfl, rfl, rfl, rfl⟩
  exact harm.trans (notify_silent _ _)

end Views

structure Sends (r s : Replica σ) (own : List Message) (n : Nat) : Prop extends Says r s own n where
  signer : s.signer = r.signer
  sound : r.Sound → s.Sound

theorem Sends.trans (hs : Sends r s own n) (ht : Sends s t later k) :
    Sends r t (later ++ own) (n + k) :=
  ⟨hs.toSays.trans ht.toSays, ht.signer.trans hs.signer, fun h => ht.sound (hs.sound h)⟩

theorem Sends.mono (hs : Sends r s own n) (hn : n ≤ k) : Sends r s own k :=
  ⟨hs.toSays.mono hn, hs.signer, hs.sound⟩

theorem Sends.silent (hs : Sends r s own n) (ht : Silent s t) : Sends r t own n :=
  ⟨by simpa using hs.toSays.trans ht.toSays, ht.signer.trans hs.signer, fun h => ht.sound (hs.sound h)⟩

theorem Speaks.sends (h : Speaks r s own n) : Sends r s own n := ⟨h.toSays, h.signer, h.sound⟩

theorem Offers.sends [Scheme] (h : Offers r s own) (hh : r.HoldsLater → s.HoldsLater) :
    Sends r s own 2 :=
  ⟨h.toSays, h.signer, fun hs => hs.of_frame h.toFrame hh⟩

/-- The replica has gone on to a later phase or view, and has said one thing at most, which is not a
proposal. -/
structure Rises [Scheme] (r s : Replica σ) : Prop where
  progress : r.progress < s.progress
  sends : ∃ own, Sends r s own 1 ∧ weigh own ≤ 1

structure Enters [Scheme] (r s : Replica σ) : Prop where
  progress : r.progress < s.progress
  active : s.waiting = false
  sends : ∃ own, Sends r s own 4 ∧ (r.Sound → own.length ≤ 1) ∧ ∀ c ∈ own, Proposal s c

section Rounds

variable [Scheme] {view : View}

omit [Scheme] in
theorem progress_eq (hv : r.view? = some view) :
    r.progress = (Progress.of view (if r.waiting then 0 else r.phase.rank + 1) : Progress) := by
  rw [Replica.progress, hv]
  rfl

theorem Rises.of_sends (hs : Sends r s [] 0) (hp : r.progress ≤ s.progress) (ht : Rises s t) :
    Rises r t := by
  obtain ⟨own, ho, hw⟩ := ht.sends
  exact ⟨hp.trans_lt ht.progress, own, by simpa using hs.trans ho, hw⟩

theorem Enters.of_sends (hs : Sends r s [] 0) (hp : r.progress ≤ s.progress) (ht : Enters s t) :
    Enters r t := by
  obtain ⟨own, ho, hone, hprop⟩ := ht.sends
  exact ⟨hp.trans_lt ht.progress, ht.active, own, by simpa using hs.trans ho,
    fun h => hone (hs.sound h), hprop⟩

omit [Scheme] in
theorem catchUp_view (r : Replica σ) (view : View) : (r.catchUp view).view? = some view := by
  unfold catchUp view?
  cases r.attempt <;> rfl

theorem sendRoundChange_eq {round : Round} (hv : r.view? = some view) (hr : view.round < round) :
    r.sendRoundChange round = (r.catchUp ⟨view.sequence, round⟩).broadcast
      (Message.roundChange r.signer ⟨view.sequence, round⟩) (.roundChange ⟨view.sequence, round⟩) := by
  simp only [sendRoundChange, hv, if_pos hr]

theorem sendRoundChange_rises {round : Round} (hv : r.view? = some view) (hr : view.round < round) :
    Rises r (r.sendRoundChange round) := by
  let asked : View := ⟨view.sequence, round⟩
  have hasked : (r.catchUp asked).view? = some asked := catchUp_view r asked
  have hcatch : Sends r (r.catchUp asked) [] 0 := by
    refine ⟨says_of_eq rfl rfl rfl rfl, rfl, fun h => ⟨fun u hu e he => ?_, fun hw => by cases hw⟩⟩
    obtain rfl := Option.some.inj (hasked.symm.trans hu)
    exact h.held view hv e he
  have hm := broadcast_speaks (r.catchUp asked) (Message.roundChange r.signer asked)
    (.roundChange asked)
  have hw := weigh_toList (m := Message.roundChange r.signer asked) fun c hc => by
    rw [(Message.signed_spec hc).1]
    decide
  rw [sendRoundChange_eq hv hr]
  refine ⟨?_, _, by simpa using (hcatch.trans hm.sends).mono (k := 1) (by simpa using hw), hw⟩
  rw [hm.progress, progress_eq hv, progress_eq hasked, WithBot.coe_lt_coe]
  exact Progress.of_lt_of.mpr (.inl (.inr ⟨rfl, hr⟩))

theorem sendRoundChange_or (r : Replica σ) (round : Round) :
    r.sendRoundChange round = r ∨ Rises r (r.sendRoundChange round) := by
  cases hv : r.view? with
  | none => exact .inl (by simp [sendRoundChange, hv])
  | some view =>
    by_cases hr : view.round < round
    · exact .inr (sendRoundChange_rises hv hr)
    · exact .inl (by simp [sendRoundChange, hv, hr])

omit [Scheme] in
theorem lt_of_next? {n k : UInt64} (h : next? n = some k) : n < k := by
  rw [UInt64.lt_iff_toNat_lt, toNat_of_next? h]
  exact Nat.lt_succ_self _

theorem sendNextRoundChange_rises (hv : r.view? = some view) (hn : next? view.round ≠ none) :
    Rises r r.sendNextRoundChange := by
  obtain ⟨round, hr⟩ := Option.ne_none_iff_exists'.mp hn
  simp only [sendNextRoundChange, hv, Option.bind_some, hr]
  exact sendRoundChange_rises hv (lt_of_next? hr)

structure AsksFor (r : Replica σ) (a : Attempt) (round : Round) (s : Replica σ) (new : List Effect) :
    Prop where
  stance : s.stance = r.stance.asking a round
  effects : s.effects = new ++ r.effects
  broadcasts : Effect.broadcasts new =
    (Message.roundChange r.signer ⟨a.view.sequence, round⟩).toList
  notices : Effect.notices new = ((Message.roundChange r.signer ⟨a.view.sequence, round⟩).map
    fun _ => Notice.roundChange ⟨a.view.sequence, round⟩).toList

theorem sendNextRoundChange_asks {a : Attempt} {round : Round} (ha : r.attempt = some a)
    (hn : next? a.view.round = some round) :
    ∃ new, AsksFor r a round r.sendNextRoundChange new := by
  have he : r.sendNextRoundChange = (r.catchUp ⟨a.view.sequence, round⟩).broadcast
      (Message.roundChange r.signer ⟨a.view.sequence, round⟩)
      (.roundChange ⟨a.view.sequence, round⟩) := by
    simp only [sendNextRoundChange, view?_of_attempt ha, Option.bind_some, hn]
    exact sendRoundChange_eq (view?_of_attempt ha) (lt_of_next? hn)
  obtain ⟨hs, new, heffects, hsaid, hnotices⟩ :=
    broadcast_reports (r.catchUp ⟨a.view.sequence, round⟩)
      (Message.roundChange r.signer ⟨a.view.sequence, round⟩) (.roundChange ⟨a.view.sequence, round⟩)
  refine ⟨new, ?_, he ▸ heffects, hsaid, hnotices⟩
  rw [he, hs]
  simp [catchUp, Replica.stance, Stance.asking, ha]

omit [Scheme] in
theorem next?_zero : next? 0 ≠ none := by decide

theorem Offers.enters (he : Says r s [] 0) (hsig : s.signer = r.signer) (hv : s.view? = some view)
    (hw : s.waiting = false) (hn : s.phase = .newRound)
    (hp : r.progress < (Progress.entry view : WithBot Progress)) (hround : next? view.round ≠ none)
    {u : Replica σ} (ho : Offers s t own) (hheld : t.HoldsLater) (hl : Offers t u later)
    (hu : u.held = t.held) (hone : r.Sound → own.length + later.length ≤ 1) :
    Enters r (u.announceView view) := by
  have hlast := announceView_silent u view
  have hframe : Frame s (u.announceView view) := (ho.toFrame.trans hl.toFrame).trans hlast.toFrame
  have hframe' : Frame t (u.announceView view) := hl.toFrame.trans hlast.toFrame
  refine ⟨?_, hframe.waiting.trans hw, later ++ own, ⟨?_, hframe.signer.trans hsig, fun _ => ?_⟩,
    fun h => ?_, fun c hc => ?_⟩
  · rw [hframe.progress, progress_eq hv, hw, hn]
    exact hp
  · simpa using ((he.trans ho.toSays).trans hl.toSays).trans hlast.toSays
  · refine ⟨hheld.of_eq hframe'.view (hlast.held.trans hu), fun _ w hw' => ?_⟩
    obtain rfl := Option.some.inj ((hframe.view.trans hv).symm.trans hw')
    exact hround
  · rw [List.length_append, Nat.add_comm]
    exact hone h
  · rcases List.mem_append.mp hc with hc | hc
    · exact (hl.proposals c hc).of_frame hlast.toFrame
    · exact (ho.proposals c hc).of_frame hframe'

theorem enterView_offers (r : Replica σ) (head : Header) (a : Attempt) :
    ∃ s own, Says r s [] 0 ∧ s.signer = r.signer ∧ s.view? = some a.view ∧ s.waiting = false ∧
      s.phase = .newRound ∧ Offers s (r.enterView head a) own ∧ (r.enterView head a).HoldsLater ∧
      ((∀ e ∈ r.held, a.view.sequence < e.1) → own = []) := by
  let entered : Replica σ :=
    { r with
      roundChanges := .empty a.view.sequence r.committee
      attempt := some a
      committee := r.committee.choose (lastProposer head) a.view.round
      waiting := false }
  obtain ⟨own, ho, hlater, hone⟩ := enterPhase_offers entered
  refine ⟨{ entered with phase := .newRound }, own, says_of_eq rfl rfl rfl rfl, rfl, rfl, rfl, rfl, ho,
    hlater, fun h => hone fun view hv => ?_⟩
  obtain rfl := Option.some.inj hv
  exact h

variable [Ledger σ]

theorem refreshCommittee_says (r : Replica σ) (head : Header) :
    Says r (r.refreshCommittee head) [] 0 ∧ (r.refreshCommittee head).signer = r.signer := by
  unfold refreshCommittee
  rcases r.archive.snapshot r.ledger head.number head.hash with ⟨e | snap, archive⟩
  · exact ⟨says_of_eq rfl rfl rfl rfl, rfl⟩
  · dsimp only
    split
    · exact ⟨says_of_eq rfl rfl rfl rfl, rfl⟩
    · exact ⟨says_nil [_] rfl rfl rfl rfl rfl, rfl⟩

theorem startSequence_enters {sequence : Height}
    (hp : r.progress < (Progress.entry ⟨sequence, 0⟩ : WithBot Progress)) (head : Header) :
    Enters r (r.startSequence head sequence) := by
  obtain ⟨hr, hsig⟩ := refreshCommittee_says r head
  obtain ⟨s, own, hs, hsig', hv, hw, hn, ho, hlater, -⟩ := enterView_offers
    (r.refreshCommittee head) head (.start ⟨sequence, 0⟩ (r.refreshCommittee head).committee)
  exact Offers.enters (by simpa using hr.trans hs) (hsig'.trans hsig) hv hw hn hp next?_zero ho
    hlater (Silent.refl _).offers rfl fun _ => ho.length_le

omit [Ledger σ] in
theorem changeRound_enters {a : Attempt} {round : Round} (ha : r.attempt = some a)
    (hp : r.progress < (Progress.entry ⟨a.view.sequence, round⟩ : WithBot Progress))
    (hround : next? round ≠ none) (head : Header) : Enters r (r.changeRound head a round) := by
  obtain ⟨s, own, hs, hsig, hv, hw, hn, ho, hlater, hnone⟩ := enterView_offers r head
    (a.next ⟨a.view.sequence, round⟩ r.committee)
  obtain ⟨later, hl, hheld⟩ := proposeAgain_offers (ho.phase.trans hn)
  -- no block is held for a height that has begun
  refine Offers.enters hs hsig hv hw hn hp hround ho hlater hl hheld fun h => ?_
  rw [hnone (h.held a.view (view?_of_attempt ha)), List.length_nil, Nat.zero_add]
  exact hl.length_le

theorem startRound_or {round : Round} (hround : next? round ≠ none)
    (hr : round = 0 ∨ r.waiting = true ∨ ∀ a ∈ r.attempt, a.view.round < round) :
    (r.startRound round = r ∨ r.startRound round = { r with started := false }) ∨
      Enters r (r.startRound round) := by
  refine startRound_induction
    (P := fun s => (s = r ∨ s = { r with started := false }) ∨ Enters r s) r round
    (fun sequence hn hle => .inr (startSequence_enters ?_ _))
    (fun a ha _ h0 hge => .inr (changeRound_enters ha ?_ hround _)) (fun _ _ _ _ _ _ => .inl (.inl rfl))
    fun _ => .inl (.inr rfl)
  · cases hv : r.view? with
    | none => simp [Replica.progress, hv]
    | some view =>
      have hlt : view.sequence < sequence := UInt64.lt_of_le_of_lt (hle view hv) (lt_of_next? hn)
      rw [progress_eq hv, WithBot.coe_lt_coe]
      exact Progress.of_lt_of.mpr (.inl (.inl hlt))
  · rw [progress_eq (view?_of_attempt ha), WithBot.coe_lt_coe]
    by_cases hlt : a.view.round < round
    · exact Progress.of_lt_of.mpr (.inl (.inr ⟨rfl, hlt⟩))
    · have heq : a.view.round = round :=
        UInt64.le_antisymm (UInt64.not_lt.mp hge) (UInt64.not_lt.mp hlt)
      have hw : r.waiting = true :=
        (hr.resolve_left h0).resolve_right fun h => hlt (h a ha)
      rw [hw]
      exact Progress.of_lt_of.mpr (.inr ⟨by rw [← heq], Nat.zero_lt_one⟩)

end Rounds

end Replica

end BlockAgreement
