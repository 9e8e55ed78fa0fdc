import BlockAgreement.Proofs.Replica.Position

/-!
# What leaves the position alone

Sending, queueing and reporting leave the position of a replica as it is, and so does whatever concerns
the proposal only. Entering a phase changes the phase, and that is all that the position has of it.
-/

set_option autoImplicit false

namespace BlockAgreement

namespace Replica

variable {σ : Type} [Ledger σ]

def position (r : Replica σ) : Position :=
  ⟨r.view?, r.waiting, r.phase, r.committee, r.roundChanges, (Ledger.head r.ledger).number⟩

structure Quiet (r s : Replica σ) : Prop where
  position : s.position = r.position
  effects : ∃ new, s.effects = new ++ r.effects ∧ Effect.entered new = []

variable {r s t : Replica σ}

theorem quiet_of_eq (hp : s.position = r.position) (he : s.effects = r.effects) : Quiet r s :=
  ⟨hp, [], he, rfl⟩

theorem Quiet.refl (r : Replica σ) : Quiet r r := quiet_of_eq rfl rfl

theorem Quiet.trans (hs : Quiet r s) (ht : Quiet s t) : Quiet r t := by
  obtain ⟨es, he, hes⟩ := hs.effects
  obtain ⟨fs, hf, hfs⟩ := ht.effects
  refine ⟨ht.position.trans hs.position, fs ++ es, by rw [hf, he, List.append_assoc], ?_⟩
  rw [Effect.entered_append, hes, hfs, List.nil_append]

theorem emit_quiet (r : Replica σ) {e : Effect} (he : e.entered? = none) : Quiet r (r.emit e) :=
  ⟨rfl, [e], rfl, by simp [Effect.entered, he]⟩

theorem drop_quiet (r : Replica σ) (m : Message) (reason : Rejection) : Quiet r (r.drop m reason) :=
  emit_quiet r rfl

section Frames

variable [Scheme]

omit [Ledger σ] in
theorem relay_eq (r : Replica σ) (payload : Bytes) :
    ∃ gossip sends, r.relay payload = { r with gossip, effects := sends ++ r.effects } ∧
      ∀ e ∈ sends, ∃ a, e = .send a payload := by
  have hsend : ∀ (recipients : List Address) (s : Replica σ),
      ∃ sends, recipients.foldl (fun s a => s.emit (.send a payload)) s =
          { s with effects := sends ++ s.effects } ∧ ∀ e ∈ sends, ∃ a, e = .send a payload := by
    intro recipients
    induction recipients with
    | nil => exact fun s => ⟨[], rfl, by simp⟩
    | cons a recipients ih =>
      intro s
      obtain ⟨sends, he, hs⟩ := ih (s.emit (.send a payload))
      refine ⟨sends ++ [.send a payload], ?_, fun e hm => ?_⟩
      · rw [List.foldl_cons, he, List.append_assoc]
        rfl
      · rcases List.mem_append.mp hm with hm | hm
        · exact hs e hm
        · exact ⟨a, List.mem_singleton.mp hm⟩
  obtain ⟨sends, he, hs⟩ := hsend _ _
  exact ⟨_, sends, he, hs⟩

omit [Ledger σ] in
theorem relay_started (r : Replica σ) (payload : Bytes) : (r.relay payload).started = r.started := by
  obtain ⟨gossip, sends, he, -⟩ := relay_eq r payload
  rw [he]

theorem relay_quiet (r : Replica σ) (payload : Bytes) : Quiet r (r.relay payload) := by
  obtain ⟨gossip, sends, he, hs⟩ := relay_eq r payload
  rw [he]
  refine ⟨rfl, sends, rfl, List.filterMap_eq_nil_iff.mpr fun e hm => ?_⟩
  obtain ⟨a, rfl⟩ := hs e hm
  rfl

theorem broadcast_quiet (r : Replica σ) (m : Option Message) {notice : Notice}
    (hn : (Effect.notify notice).entered? = none) : Quiet r (r.broadcast m notice) := by
  cases m with
  | none => exact .refl r
  | some c =>
    let payload := Wire.encode c
    let sent := (r.emit (.broadcast c)).relay payload
    have hsent : Quiet r sent := (emit_quiet r rfl).trans (relay_quiet _ payload)
    have hready : Quiet sent { sent with ready := sent.ready ++ [Delivery.mk c payload] } :=
      quiet_of_eq rfl rfl
    exact (hsent.trans hready).trans (emit_quiet _ hn)

theorem sendPreprepare_quiet (r : Replica σ) (b : Block) : Quiet r (r.sendPreprepare b) := by
  unfold sendPreprepare
  split
  · exact .refl r
  · split
    · exact broadcast_quiet r _ rfl
    · exact .refl r

theorem sendCommitFor_quiet (r : Replica σ) (s : Subject) : Quiet r (r.sendCommitFor s) :=
  broadcast_quiet r _ rfl

theorem sendCommit_quiet (r : Replica σ) : Quiet r r.sendCommit := by
  unfold sendCommit
  split
  · exact .refl r
  · exact sendCommitFor_quiet r _

theorem sendPrepare_quiet (r : Replica σ) : Quiet r r.sendPrepare := by
  unfold sendPrepare
  split
  · exact .refl r
  · exact broadcast_quiet r _ rfl

omit [Scheme] in
theorem setAttempt_quiet {a b : Attempt} (ha : r.attempt = some a) (hv : b.view = a.view) :
    Quiet r { r with attempt := some b } :=
  quiet_of_eq (by simp [position, view?, ha, hv]) rfl

theorem handleRequest_quiet (r : Replica σ) (b : Block) : Quiet r (r.handleRequest b) := by
  unfold handleRequest
  split
  · exact .refl r
  · rename_i a ha
    split
    · exact quiet_of_eq rfl rfl
    · split
      · exact .refl r
      · have hr : Quiet r { r with attempt := some { a with request := some b } } :=
          setAttempt_quiet ha rfl
        dsimp only
        split
        · exact hr.trans (sendPreprepare_quiet _ b)
        · exact hr

theorem takeHeld_quiet (r : Replica σ) : Quiet r r.takeHeld := by
  unfold takeHeld
  split
  · exact .refl r
  · dsimp only
    split
    · exact quiet_of_eq rfl rfl
    · exact Quiet.trans (quiet_of_eq (by rfl) (by rfl)) (handleRequest_quiet _ _)

omit [Scheme] in
theorem replay_quiet (r : Replica σ) : Quiet r r.replay := by
  unfold replay
  split <;> exact quiet_of_eq rfl rfl

theorem enterPhase_quiet (r : Replica σ) (phase : Phase) :
    Quiet { r with phase } (r.enterPhase phase) := by
  have htime : Quiet { r with phase } { r.extendTime phase with phase } := by
    unfold extendTime
    split
    · split <;> exact quiet_of_eq rfl rfl
    · exact .refl _
  unfold enterPhase
  dsimp only
  split
  · exact (htime.trans (takeHeld_quiet _)).trans (replay_quiet _)
  · exact htime.trans (replay_quiet _)

theorem proposeAgain_quiet (r : Replica σ) : Quiet r r.proposeAgain := by
  unfold proposeAgain
  split
  · split
    · exact .refl r
    · exact sendPreprepare_quiet r _
  · exact .refl r

omit [Scheme] in
theorem postpone_quiet (r : Replica σ) (d : Delivery) : Quiet r (r.postpone d) := by
  unfold postpone
  split
  · exact drop_quiet r _ _
  · split
    · exact quiet_of_eq rfl rfl
    · exact drop_quiet r _ _

omit [Ledger σ] [Scheme] in
theorem postpone_started (r : Replica σ) (d : Delivery) : (r.postpone d).started = r.started := by
  unfold postpone
  split
  · rfl
  · split <;> rfl

theorem refreshCommittee_quiet (r : Replica σ) (head : Header) :
    ∃ committee, Quiet { r with committee } (r.refreshCommittee head) := by
  unfold refreshCommittee
  rcases r.archive.snapshot r.ledger head.number head.hash with ⟨e | s, archive⟩
  · exact ⟨r.committee, quiet_of_eq rfl rfl⟩
  · refine ⟨s.committee, ?_⟩
    dsimp only
    split
    · exact quiet_of_eq rfl rfl
    · exact ⟨rfl, [_], rfl, rfl⟩

end Frames

end Replica

end BlockAgreement
