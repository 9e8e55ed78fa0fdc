import BlockAgreement.Proofs.Replica.Quiet
import BlockAgreement.Proofs.Replica.Run
import BlockAgreement.Proofs.Replica.Stance

/-!
# Whatever a replica does, it moves

Each function of a replica leads from its stance to the next one by moves. What is not in the stance,
queues above all, only has to be followed so far: a message is queued if it was heard or if the replica
has broadcast it.
-/

set_option autoImplicit false

namespace BlockAgreement

def Effect.isSpoken : Effect → Bool
  | .broadcast _ => true
  | .commit _ => true
  | .notify _ => false
  | .send _ _ => false

namespace Backlog

/-- Every message that waits. -/
def messages (b : Backlog) : List Message := (b.queues.flatMap (·.2)).map (·.message)

theorem mem_messages {b : Backlog} {c : Message} :
    c ∈ b.messages ↔ ∃ q ∈ b.queues, ∃ d ∈ q.2, d.message = c := by
  simp only [messages, List.mem_map, List.mem_flatMap]
  exact ⟨fun ⟨d, ⟨q, hq, hd⟩, hc⟩ => ⟨q, hq, d, hd, hc⟩, fun ⟨q, hq, d, hd, hc⟩ => ⟨d, ⟨q, hq, hd⟩, hc⟩⟩

theorem mem_messages_push {b : Backlog} {slot : Slot} {d : Delivery} {c : Message}
    (hc : c ∈ (b.push slot d).messages) : c = d.message ∨ c ∈ b.messages := by
  obtain ⟨q, hq, e, he, rfl⟩ := mem_messages.mp hc
  rcases SortedMap.mem_insert hq with rfl | hq
  · rcases List.mem_append.mp he with he | he
    · refine .inr (mem_messages.mpr ?_)
      cases hf : b.queues.find? slot with
      | none => simp [hf] at he
      | some ds =>
        rw [SortedMap.find?, Option.map_eq_some_iff] at hf
        obtain ⟨p, hp, rfl⟩ := hf
        exact ⟨p, List.mem_of_find?_eq_some hp, e, by simpa [SortedMap.find?, hp] using he, rfl⟩
    · exact .inl (by rw [List.mem_singleton.mp he])
  · exact .inr (mem_messages.mpr ⟨q, hq, e, he, rfl⟩)

theorem mem_messages_evict {b : Backlog} {c : Message} (hc : c ∈ b.evict.messages) :
    c ∈ b.messages := by
  unfold evict at hc
  split at hc
  · exact hc
  · rename_i slot ds hl
    obtain ⟨q, hq, e, he, rfl⟩ := mem_messages.mp hc
    rcases List.mem_append.mp hq with hq | hq
    · exact mem_messages.mpr ⟨q, List.dropLast_subset _ hq, e, he, rfl⟩
    · split at hq
      · simp at hq
      · rw [List.mem_singleton] at hq
        subst hq
        exact mem_messages.mpr
          ⟨_, List.mem_of_getLast? hl, e, List.dropLast_subset _ he, rfl⟩

theorem mem_messages_insert {b : Backlog} {view : View} {d : Delivery} {c : Message}
    (hc : c ∈ (b.insert view d).2.messages) : c = d.message ∨ c ∈ b.messages := by
  unfold insert at hc
  dsimp only at hc
  split at hc
  · exact mem_messages_push hc
  · split at hc
    · exact .inr hc
    · split at hc
      · exact (mem_messages_push hc).imp_right mem_messages_evict
      · exact .inr hc

theorem mem_messages_drain {b : Backlog} {classify : View → MessageKind → Disposition} {c : Message}
    (hc : c ∈ (b.drain classify).1.map (·.message) ∨ c ∈ (b.drain classify).2.messages) :
    c ∈ b.messages := by
  rcases hc with hc | hc
  · obtain ⟨d, hd, rfl⟩ := List.mem_map.mp hc
    obtain ⟨⟨view, e⟩, he, rfl⟩ := List.mem_map.mp hd
    obtain ⟨q, hq, hm⟩ := List.mem_flatMap.mp (List.mem_filter.mp he).1
    obtain ⟨e', he', hee⟩ := List.mem_map.mp hm
    cases hee
    exact mem_messages.mpr ⟨q, hq, e, he', rfl⟩
  · obtain ⟨q, hq, e, he, rfl⟩ := mem_messages.mp hc
    obtain ⟨p, hp, rfl⟩ := List.mem_map.mp (List.mem_filter.mp hq).1
    exact mem_messages.mpr ⟨p, hp, e, (List.mem_filter.mp he).1, rfl⟩

end Backlog

namespace Replica

open Stance

variable {σ : Type}

def stance (r : Replica σ) : Stance σ :=
  ⟨r.signer, r.ledger, r.archive, r.phase, r.waiting, r.attempt, r.committee⟩

def queued (r : Replica σ) : List Message := r.ready.map (·.message) ++ r.backlog.messages

variable [Scheme] [Ledger σ]

/-- The replica `s` has come from `r` by moves, which were spoken of as `s` shows. What is queued in
the end was queued before, was heard, or was broadcast. -/
def Leads (origin : Stance σ) (heard : Option Message) (r s : Replica σ) : Prop :=
  ∃ new, s.effects = new ++ r.effects ∧
    Moves origin heard r.stance (new.filter Effect.isSpoken) s.stance ∧
    ∀ c ∈ s.queued, c ∈ r.queued ∨ heard = some c ∨ .broadcast c ∈ new

variable {origin : Stance σ} {heard : Option Message} {r s t : Replica σ}

theorem leads_trans (hs : Leads origin heard r s) (ht : Leads origin heard s t) :
    Leads origin heard r t := by
  obtain ⟨es, he, hm, hq⟩ := hs
  obtain ⟨fs, hf, hn, hp⟩ := ht
  refine ⟨fs ++ es, by rw [hf, he, List.append_assoc], ?_, ?_⟩
  · rw [List.filter_append]
    exact hm.trans hn
  · intro c hc
    rcases hp c hc with hc | hc | hc
    · rcases hq c hc with hc | hc | hc
      · exact .inl hc
      · exact .inr (.inl hc)
      · exact .inr (.inr (List.mem_append_right _ hc))
    · exact .inr (.inl hc)
    · exact .inr (.inr (List.mem_append_left _ hc))

theorem leads_moves {new : List Effect} (hm : Moves origin heard r.stance [] s.stance)
    (he : s.effects = new ++ r.effects) (hn : new.filter Effect.isSpoken = [])
    (hq : ∀ c ∈ s.queued, c ∈ r.queued) : Leads origin heard r s :=
  ⟨new, he, hn ▸ hm, fun c hc => .inl (hq c hc)⟩

theorem leads_quiet (hm : s.stance = r.stance) (he : s.effects = r.effects)
    (hq : ∀ c ∈ s.queued, c ∈ r.queued) : Leads origin heard r s :=
  leads_moves (by rw [hm]; exact .refl _) (by rw [he]; exact (List.nil_append _).symm) rfl hq

theorem leads_refl (r : Replica σ) : Leads origin heard r r := leads_quiet rfl rfl fun _ hc => hc

theorem emit_leads {e : Effect} (he : e.isSpoken = false) : Leads origin heard r (r.emit e) :=
  leads_moves (.refl _) (by rfl : _ = [e] ++ r.effects) (by simp [he]) fun _ hc => hc

theorem notify_leads (n : Notice) : Leads origin heard r (r.notify n) := emit_leads rfl

omit [Ledger σ] in
theorem relay_frame (r : Replica σ) (payload : Bytes) :
    (r.relay payload).stance = r.stance ∧ (r.relay payload).queued = r.queued ∧
      ∃ sends, (r.relay payload).effects = sends ++ r.effects ∧
        ∀ e ∈ sends, ∃ a, e = .send a payload := by
  obtain ⟨gossip, sends, he, hs⟩ := relay_eq r payload
  rw [he]
  exact ⟨rfl, rfl, sends, rfl, hs⟩

theorem relay_leads (r : Replica σ) (payload : Bytes) :
    Leads origin heard r (r.relay payload) := by
  obtain ⟨hs, hq, sends, he, hn⟩ := relay_frame r payload
  refine leads_moves (hs ▸ .refl _) he ?_ (hq ▸ fun _ hc => hc)
  rw [List.filter_eq_nil_iff]
  intro e hm
  obtain ⟨a, rfl⟩ := hn e hm
  simp [Effect.isSpoken]

theorem broadcast_leads {m : Option Message} {notice : Notice}
    (hm : Moves origin heard r.stance (voice m) s.stance) (he : s.effects = r.effects)
    (hq : ∀ c ∈ s.queued, c ∈ r.queued) : Leads origin heard r (s.broadcast m notice) := by
  cases m with
  | none => exact leads_moves hm (by rw [List.nil_append]; exact he) rfl hq
  | some c =>
    obtain ⟨hs, hrq, sends, hre, hn⟩ := relay_frame (s.emit (.broadcast c)) (Wire.encode c)
    have hsends : sends.filter Effect.isSpoken = [] := by
      rw [List.filter_eq_nil_iff]
      intro e hm
      obtain ⟨a, rfl⟩ := hn e hm
      simp [Effect.isSpoken]
    refine ⟨.notify notice :: (sends ++ [.broadcast c]), ?_, ?_, ?_⟩
    · show Effect.notify notice :: ((s.emit (.broadcast c)).relay (Wire.encode c)).effects = _
      rw [hre]
      simp [emit, he]
    · rw [List.filter_cons_of_neg (by simp [Effect.isSpoken]), List.filter_append, hsends]
      exact (hs : (s.broadcast (some c) notice).stance = s.stance) ▸ hm
    · intro x hx
      have hx : x ∈ ((s.emit (.broadcast c)).relay (Wire.encode c)).queued ∨ x = c := by
        simp only [queued, broadcast, notify, emit, List.map_append, List.mem_append, List.map_cons,
          List.map_nil, List.mem_singleton] at hx ⊢
        exact or_right_comm.mp hx
      rcases hx with hx | rfl
      · rw [hrq] at hx
        exact .inl (hq x hx)
      · exact .inr (.inr (by simp))

theorem sendPreprepare_leads {b : Block} (hn : r.phase = .newRound)
    (hb : ∀ a ∈ r.attempt, a.request = some b ∨ a.lock.isSome ∧ a.proposal = some b) :
    Leads origin heard r (r.sendPreprepare b) := by
  cases ha : r.attempt with
  | none =>
    simp only [sendPreprepare, view?, ha, Option.map_none]
    exact leads_refl r
  | some a =>
    simp only [sendPreprepare, view?_of_attempt ha]
    split
    · rename_i hp
      exact broadcast_leads (Move.propose (s := r.stance) ha hp.1 hp.2 hn (hb a ha)).single rfl
        fun _ hc => hc
    · exact leads_refl r

theorem handleRequest_leads (r : Replica σ) (b : Block) :
    Leads origin heard r (r.handleRequest b) := by
  unfold handleRequest
  split
  · exact leads_refl r
  · rename_i a ha
    split
    · exact leads_quiet rfl rfl fun _ hc => hc
    · split
      · exact leads_refl r
      · rename_i hlt hgt
        have hb : b.number = a.view.sequence :=
          UInt64.le_antisymm (UInt64.not_lt.mp hlt) (UInt64.not_lt.mp hgt)
        have hr : Leads origin heard r { r with attempt := some { a with request := some b } } :=
          leads_moves (Move.request b ha hb).single (List.nil_append _).symm rfl fun _ hc => hc
        dsimp only
        split
        · rename_i hn
          refine leads_trans hr (sendPreprepare_leads hn ?_)
          rintro c hc
          obtain rfl := Option.some.inj hc
          exact .inl rfl
        · exact hr

theorem takeHeld_leads (r : Replica σ) : Leads origin heard r r.takeHeld := by
  unfold takeHeld
  split
  · exact leads_refl r
  · have hr : ∀ held, Leads origin heard r { r with held } :=
      fun held => leads_quiet rfl rfl fun _ hc => hc
    dsimp only
    split
    · exact hr _
    · exact leads_trans (hr _) (handleRequest_leads _ _)

omit [Scheme] [Ledger σ] in
theorem replay_frame (r : Replica σ) : r.replay.stance = r.stance ∧ r.replay.effects = r.effects ∧
    ∀ c ∈ r.replay.queued, c ∈ r.queued := by
  unfold replay
  split
  · exact ⟨rfl, rfl, fun _ hc => hc⟩
  · refine ⟨rfl, rfl, ?_⟩
    intro c hc
    simp only [queued, List.map_append, List.mem_append] at hc ⊢
    rcases hc with (hc | hc) | hc
    · exact .inl hc
    · exact .inr (Backlog.mem_messages_drain (.inl hc))
    · exact .inr (Backlog.mem_messages_drain (.inr hc))

omit [Scheme] [Ledger σ] in
theorem extendTime_frame (r : Replica σ) (phase : Phase) :
    (r.extendTime phase).stance = r.stance ∧ (r.extendTime phase).effects = r.effects ∧
      (r.extendTime phase).queued = r.queued := by
  unfold extendTime
  split
  · split <;> exact ⟨rfl, rfl, rfl⟩
  · exact ⟨rfl, rfl, rfl⟩

theorem setPhase_leads (r : Replica σ) (phase : Phase) :
    Leads origin heard { r with phase } { r.extendTime phase with phase } := by
  obtain ⟨hs, he, hq⟩ := extendTime_frame r phase
  refine leads_quiet ?_ he (fun c hc => ?_)
  · simp only [stance, Stance.mk.injEq] at hs ⊢
    exact ⟨hs.1, hs.2.1, hs.2.2.1, trivial, hs.2.2.2.2⟩
  · exact (show c ∈ r.queued from hq ▸ (show c ∈ (r.extendTime phase).queued from hc))

theorem enterPhase_leads (r : Replica σ) (phase : Phase) :
    Leads origin heard { r with phase } (r.enterPhase phase) := by
  have hreplay : ∀ s : Replica σ, Leads origin heard s s.replay := fun s =>
    leads_quiet (replay_frame s).1 (replay_frame s).2.1 (replay_frame s).2.2
  unfold enterPhase
  refine leads_trans (setPhase_leads r phase) ?_
  dsimp only
  split
  · exact leads_trans (takeHeld_leads _) (hreplay _)
  · exact hreplay _

omit [Ledger σ] in
theorem enterPhase_frame (r : Replica σ) {phase : Phase} (hp : phase ≠ .newRound) :
    (r.enterPhase phase).stance = { r.stance with phase } ∧
      (r.enterPhase phase).effects = r.effects ∧
      ∀ c ∈ (r.enterPhase phase).queued, c ∈ r.queued := by
  unfold enterPhase
  dsimp only
  rw [if_neg hp]
  obtain ⟨hs, he, hq⟩ := extendTime_frame r phase
  obtain ⟨hrs, hre, hrq⟩ := replay_frame { r.extendTime phase with phase }
  refine ⟨hrs.trans ?_, hre.trans he, fun c hc => ?_⟩
  · simp only [stance, Stance.mk.injEq] at hs ⊢
    exact ⟨hs.1, hs.2.1, hs.2.2.1, trivial, hs.2.2.2.2⟩
  · exact hq ▸ (show c ∈ (r.extendTime phase).queued from hrq c hc)

theorem sendRoundChange_leads (r : Replica σ) (round : Round) :
    Leads origin heard r (r.sendRoundChange round) := by
  cases ha : r.attempt with
  | none =>
    simp only [sendRoundChange, view?, ha, Option.map_none]
    exact leads_refl r
  | some a =>
    simp only [sendRoundChange, view?_of_attempt ha]
    split
    · rename_i hr
      have hs : (r.catchUp ⟨a.view.sequence, round⟩).stance = r.stance.asking a round := by
        simp [catchUp, stance, asking, ha]
      refine broadcast_leads ?_ rfl fun _ hc => hc
      rw [hs]
      exact (Move.ask (s := r.stance) ha hr).single
    · exact leads_refl r

theorem sendNextRoundChange_leads (r : Replica σ) :
    Leads origin heard r r.sendNextRoundChange := by
  unfold sendNextRoundChange
  split
  · exact leads_refl r
  · exact sendRoundChange_leads r _

theorem refreshCommittee_frame (r : Replica σ) (head : Header) :
    (r.refreshCommittee head).stance = r.stance.refreshed head ∧
      (r.refreshCommittee head).queued = r.queued ∧
      ∃ new, (r.refreshCommittee head).effects = new ++ r.effects ∧
        new.filter Effect.isSpoken = [] := by
  unfold refreshCommittee
  rcases hs : r.archive.snapshot r.ledger head.number head.hash with ⟨e | snap, archive⟩
  · exact ⟨by simp [refreshed, stance, hs], rfl, [], rfl, rfl⟩
  · dsimp only
    split
    · exact ⟨by simp [refreshed, stance, hs], rfl, [], rfl, rfl⟩
    · exact ⟨by simp [refreshed, stance, hs, notify, emit], rfl, [_], rfl, rfl⟩

theorem enterView_leads (head : Header) (a : Attempt) {es : List Effect}
    (hm : Moves origin heard r.stance [] (s.stance.entering head a))
    (he : s.effects = es ++ r.effects) (hn : es.filter Effect.isSpoken = [])
    (hq : ∀ c ∈ s.queued, c ∈ r.queued) : Leads origin heard r (s.enterView head a) :=
  leads_trans (leads_moves hm he hn hq : Leads origin heard r
    { s with
      roundChanges := .empty a.view.sequence s.committee
      attempt := some a
      committee := s.committee.choose (lastProposer head) a.view.round
      waiting := false
      phase := .newRound }) (enterPhase_leads _ .newRound)

theorem announceView_leads (r : Replica σ) (view : View) :
    Leads origin heard r (r.announceView view) :=
  leads_trans (leads_quiet rfl rfl fun _ hc => hc) (notify_leads _)

theorem startSequence_leads {sequence : Height}
    (hn : next? (Ledger.head r.ledger).number = some sequence)
    (ha : ∀ a ∈ r.attempt, a.view.sequence ≤ (Ledger.head r.ledger).number) :
    Leads origin heard r (r.startSequence (Ledger.head r.ledger) sequence) := by
  obtain ⟨hs, hq, es, he, hes⟩ := refreshCommittee_frame r (Ledger.head r.ledger)
  refine leads_trans (enterView_leads _ _ ?_ he hes (hq ▸ fun _ hc => hc)) (announceView_leads _ _)
  have hc : (r.refreshCommittee (Ledger.head r.ledger)).committee =
      (r.stance.refreshed (Ledger.head r.ledger)).committee := congrArg Stance.committee hs
  rw [hs, hc]
  exact (Move.enterSequence (s := r.stance) hn ha).single

theorem proposeAgain_leads (hn : r.phase = .newRound) : Leads origin heard r r.proposeAgain := by
  unfold proposeAgain
  split
  · split
    · exact leads_refl r
    · rename_i b hb
      refine sendPreprepare_leads hn ?_
      intro a ha
      rw [Option.mem_def.mp ha, Option.bind_some] at hb
      split at hb
      · rename_i hl
        exact .inr ⟨hl, hb⟩
      · exact .inl hb
  · exact leads_refl r

theorem changeRound_leads {a : Attempt} {round : Round} (ha : r.attempt = some a)
    (hn : next? (Ledger.head r.ledger).number = some a.view.sequence) (h0 : round ≠ 0)
    (hr : ¬ round < a.view.round) (hw : r.waiting = true ∨ a.view.round < round) :
    Leads origin heard r (r.changeRound (Ledger.head r.ledger) a round) := by
  refine leads_trans (leads_trans (enterView_leads (s := r) _ _ ?_ (List.nil_append _).symm rfl
    fun _ hc => hc) (proposeAgain_leads ?_)) (announceView_leads _ _)
  · exact (Move.enterRound (s := r.stance) ha hn h0 hr hw).single
  · exact congrArg Position.phase (enterPhase_quiet _ .newRound).position

theorem startRound_leads {round : Round}
    (hr : round = 0 ∨ r.waiting = true ∨ ∀ a ∈ r.attempt, a.view.round < round) :
    Leads origin heard r (r.startRound round) := by
  refine startRound_induction r round (fun sequence hn hle => ?_) (fun a ha hn h0 hbelow => ?_)
    (fun _ _ _ _ _ _ => leads_refl r) fun _ => leads_quiet rfl rfl fun _ hc => hc
  · exact startSequence_leads hn fun a ha => hle a.view (view?_of_attempt ha)
  · exact changeRound_leads ha hn h0 hbelow ((hr.resolve_left h0).imp_right fun hr => hr a ha)

theorem handleTimeout_leads (r : Replica σ) (view : View) :
    Leads origin heard r (r.handleTimeout view) := by
  have htold : Leads origin heard r (r.notify (.viewTimeout view)) := notify_leads _
  refine handleTimeout_induction r view (fun _ => leads_refl r) (fun round _ _ _ _ => ?_) (fun _ _ => ?_)
    fun _ _ _ => ?_
  · exact leads_trans htold (sendRoundChange_leads _ round)
  · exact leads_trans htold (startRound_leads (.inl rfl))
  · exact leads_trans htold (sendNextRoundChange_leads _)

end Replica

end BlockAgreement
