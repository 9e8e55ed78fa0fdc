import BlockAgreement.Proofs.Replica.Processing

/-!
# What a replica hears moves it

A message that is processed leads to moves from the stance in which it is heard. With this, every moment
of a run is a list of moves.
-/

set_option autoImplicit false

namespace BlockAgreement

variable {σ : Type} [Scheme] [Ledger σ]

namespace Replica

open Stance

variable {origin : Stance σ} {heard : Option Message} {r s : Replica σ} {m : Message}

theorem consulted_leads {archive : Archive}
    (h : Archive.Consulted r.ledger r.archive archive) :
    Leads origin heard r { r with archive } := by
  rcases h with rfl | ⟨number, hash, rfl⟩
  · exact leads_refl r
  · exact leads_moves (Move.consult (s := r.stance) number hash).single (List.nil_append _).symm rfl
      fun _ hc => hc

section Votes

variable {a : Attempt} {b : Block} {phase : Phase} {archive : Archive}

omit [Ledger σ] in
theorem voting_frame (r : Replica σ) (archive : Archive) (a : Attempt) (hp : phase ≠ .newRound) :
    (r.voting archive a phase).stance = { r.stance with archive, attempt := some a, phase } ∧
      (r.voting archive a phase).effects = r.effects ∧
      ∀ c ∈ (r.voting archive a phase).queued, c ∈ r.queued :=
  enterPhase_frame { r with archive, attempt := some a } hp

omit [Ledger σ] in
theorem sendPrepare_eq (hp : phase ≠ .newRound) (hb : a.proposal = some b) :
    (r.voting archive a phase).sendPrepare = (r.voting archive a phase).broadcast
      (Message.prepare r.signer ⟨a.view, b.hash⟩) (.prepare ⟨a.view, b.hash⟩) := by
  have hs := (voting_frame r archive a hp).1
  have ha := congrArg Stance.attempt hs
  have hk := congrArg Stance.signer hs
  simp only [stance] at ha hk
  simp [sendPrepare, ha, hk, Attempt.subject, hb]

omit [Ledger σ] in
theorem sendCommit_eq (hp : phase ≠ .newRound) (hb : a.proposal = some b) :
    (r.voting archive a phase).sendCommit = (r.voting archive a phase).broadcast
      (Message.commit r.signer ⟨a.view, b.hash⟩) (.commit ⟨a.view, b.hash⟩) := by
  have hs := (voting_frame r archive a hp).1
  have ha := congrArg Stance.attempt hs
  have hk := congrArg Stance.signer hs
  simp only [stance] at ha hk
  simp [sendCommit, sendCommitFor, ha, hk, Attempt.subject, hb]

theorem vote_leads {c : Option Message} {notice : Notice} (hp : phase ≠ .newRound)
    (hm : Move origin heard r.stance (voice c)
      { r.stance with archive, attempt := some a, phase }) :
    Leads origin heard r ((r.voting archive a phase).broadcast c notice) := by
  obtain ⟨hs, he, hq⟩ := voting_frame r archive a hp
  refine broadcast_leads ?_ he hq
  rw [hs]
  exact hm.single

omit [Ledger σ] in
theorem decided_stance (r : Replica σ) (a : Attempt) (b : Block) :
    (r.decided a b).stance =
      { r.stance with attempt := some { a with lock := some b.hash }, phase := .committed } :=
  (voting_frame r r.archive { a with lock := some b.hash } (by decide)).1

omit [Ledger σ] in
theorem decided_attempt (r : Replica σ) (a : Attempt) (b : Block) :
    (r.decided a b).attempt = some { a with lock := some b.hash } :=
  congrArg Stance.attempt (decided_stance r a b)

omit [Ledger σ] in
theorem decided_effects (r : Replica σ) (a : Attempt) (b : Block) :
    (r.decided a b).effects = .commit (b.withSealsOf a.commits) :: r.effects :=
  congrArg (_ :: ·) (voting_frame r r.archive { a with lock := some b.hash } (by decide)).2.1

omit [Ledger σ] in
theorem released_stance (r : Replica σ) (a : Attempt) (b : Block) :
    (r.released a b).stance =
      { r.stance with attempt := some { a with lock := none }, phase := .committed } :=
  congrArg (fun t : Stance σ => { t with attempt := some { a with lock := none } }) (decided_stance r a b)

theorem decided_leads {t : Stance σ}
    (hm : Move origin heard r.stance [.commit (b.withSealsOf a.commits)] t)
    (hs : s.stance = t) (he : s.effects = (r.decided a b).effects)
    (hq : s.queued = (r.decided a b).queued) :
    Leads origin heard r s := by
  obtain ⟨-, -, hqueued⟩ := voting_frame r r.archive { a with lock := some b.hash }
    (show Phase.committed ≠ .newRound by decide)
  have hshown : s.effects = [.commit (b.withSealsOf a.commits)] ++ r.effects :=
    he.trans (decided_effects r a b)
  refine ⟨_, hshown, ?_, fun c hc => .inl (hqueued c (hq ▸ hc))⟩
  rw [hs]
  exact hm.single

theorem finalized_leads {ledger : σ}
    (hm : Move origin heard r.stance [.commit (b.withSealsOf a.commits)] { r.stance with
      ledger, attempt := some { a with lock := some b.hash }, phase := .committed }) :
    Leads origin heard r (r.finalized a b ledger) := by
  have hs := congrArg (fun t : Stance σ => { t with ledger }) (decided_stance r a b)
  have hlead : Leads origin heard r { r.decided a b with ledger } := decided_leads hm hs rfl rfl
  exact leads_trans hlead (notify_leads _)

theorem released_leads
    (hm : Move origin heard r.stance [.commit (b.withSealsOf a.commits)] { r.stance with
      attempt := some { a with lock := none }, phase := .committed }) :
    Leads origin heard r (r.released a b) := decided_leads hm (released_stance r a b) rfl rfl

end Votes

/-- Whatever is done about a message, the replica moves. -/
theorem Treats.leads {v : Except Rejection Unit} (h : r.Treats m v s) : Leads r.stance (some m) r s := by
  cases h with
  | refuse => exact leads_refl r
  | consult _ hc => exact consulted_leads hc
  | answer hm hk hp ha hv hh hn hc =>
    refine leads_trans (consulted_leads hc) (broadcast_leads ?_ rfl fun _ hc => hc)
    exact (Move.answer rfl hm ha hk hp hv hh hn).single
  | object _ _ hc => exact leads_trans (consulted_leads hc) (sendNextRoundChange_leads _)
  | accept hp hl =>
    have hm : Move r.stance (some m) r.stance _ _ := Move.accept rfl hp hl
    rw [sendPrepare_eq (by decide) rfl]
    exact vote_leads (by decide) hm
  | support hp hl =>
    have hm : Move r.stance (some m) r.stance _ _ := Move.support rfl hp hl
    rw [sendCommit_eq (by decide) rfl]
    exact vote_leads (by decide) hm
  | countPrepare hc hp hq =>
    have hm : Move r.stance (some m) r.stance _ _ := Move.countPrepare rfl hc hp hq
    exact leads_moves hm.single (List.nil_append _).symm rfl fun _ hc => hc
  | @lock a b prepares hc hp hs hn =>
    have hm : Move r.stance (some m) r.stance _ _ := Move.lock rfl hc hp hs hn
    rw [sendCommit_eq (a := { a with prepares, lock := some b.hash }) (by decide) hc.proposal]
    exact vote_leads (by decide) hm
  | countCommit hc hs hp hq =>
    have hm : Move r.stance (some m) r.stance _ _ := Move.countCommit rfl hc hs hp hq
    exact leads_moves hm.single (List.nil_append _).symm rfl fun _ hc => hc
  | @finalize a b commits ledger hc hs hp hq hn hl =>
    have hm : Move r.stance (some m) r.stance _ _ := Move.finalize rfl hc hs hp hq hn hl
    exact leads_trans (finalized_leads (a := { a with commits }) hm) (startRound_leads (.inl rfl))
  | @release a b commits fault hc hs hp hq hn hl =>
    have hm : Move r.stance (some m) r.stance _ _ := Move.refuse rfl hc hs hp hq hn hl
    exact leads_trans (released_leads (a := { a with commits }) hm) (sendNextRoundChange_leads _)
  | tally => exact leads_quiet rfl rfl fun _ hc => hc
  | join => exact leads_trans (leads_quiet rfl rfl fun _ hc => hc) (sendRoundChange_leads _ _)
  | @enter view round ha hd =>
    refine leads_trans (leads_quiet rfl rfl fun _ hc => hc) (startRound_leads (.inr (hd.2.imp_right ?_)))
    intro hlt a hattempt
    have hv : view = a.view := Option.some.inj (ha.current.symm.trans (view?_of_attempt hattempt))
    exact hv ▸ hlt

theorem process_leads (r : Replica σ) (m : Message) :
    Leads r.stance (some m) r (r.process m).2 := (process_treats r m).leads

theorem drop_leads (r : Replica σ) (m : Message) (reason : Rejection) :
    Leads origin heard r (r.drop m reason) := notify_leads _

theorem postpone_leads (r : Replica σ) (d : Delivery) :
    Leads origin (some d.message) r (r.postpone d) := by
  unfold postpone
  split
  · exact drop_leads _ _ _
  · rename_i view hview
    split
    · rename_i backlog hins
      refine ⟨[], rfl, .refl _, fun c hc => ?_⟩
      simp only [queued, List.mem_append] at hc ⊢
      rcases hc with hc | hc
      · exact .inl (.inl hc)
      · have hb : (r.backlog.insert view d).2 = backlog := by rw [hins]
        rcases Backlog.mem_messages_insert (hb ▸ hc) with rfl | hc
        · exact .inr (.inl rfl)
        · exact .inl (.inr hc)
    · exact drop_leads _ _ _

theorem receive_leads (r : Replica σ) (d : Delivery) :
    Leads r.stance (some d.message) r (r.receive d) := by
  refine receive_induction r d (process_leads r d.message) (fun s hs => ?_) (fun s _ _ hs => ?_)
    fun s e hs => ?_
  · exact leads_trans hs (relay_leads s _)
  · exact leads_trans hs (postpone_leads s d)
  · exact leads_trans hs (drop_leads s _ e)

theorem advance_leads {d : Delivery} {ready : List Delivery} (hd : r.ready = d :: ready) :
    Leads r.stance (some d.message) r ({ r with ready }.receive d) := by
  have hq : Leads r.stance (some d.message) r { r with ready } := by
    refine leads_quiet rfl rfl fun c hc => ?_
    simp only [queued, hd, List.map_cons, List.cons_append, List.mem_cons] at hc ⊢
    exact .inr hc
  exact leads_trans hq (receive_leads { r with ready } d)

/-- Whatever happens to a replica, short of another ledger, it moves. -/
theorem react_leads (r : Replica σ) {e : Event σ} (he : ∀ l, e ≠ .replace l) :
    Leads r.stance (Moment.heard ⟨r, e⟩) r (r.react e) := by
  cases e with
  | start =>
    unfold react
    dsimp only
    split
    · exact leads_refl r
    · exact leads_trans (leads_quiet rfl rfl fun _ hc => hc) (startRound_leads (.inl rfl))
  | stop =>
    refine leads_quiet rfl rfl fun c hc => ?_
    simp only [react, stop, queued, List.map_nil, List.nil_append] at hc
    exact List.mem_append_right _ hc
  | input i =>
    unfold react Moment.heard
    dsimp only
    split
    · cases i with
      | request b => exact handleRequest_leads r b
      | message d => exact receive_leads r d
      | timeout view => exact handleTimeout_leads r view
      | headMoved => exact startRound_leads (.inl rfl)
    · cases i with
      | message d => exact drop_leads _ _ _
      | _ => exact leads_refl r
  | process =>
    rcases Bool.eq_false_or_eq_true r.started with hs | hs
    · by_cases hr : r.ready = []
      · simp only [react, advance, hs, hr, Option.getD_none]
        exact leads_refl r
      · obtain ⟨d, ready, hr⟩ := List.exists_cons_of_ne_nil hr
        simpa only [react, advance, Moment.heard, hs, hr, if_true, Option.getD_some,
          List.head?_cons, Option.map_some] using advance_leads hr
    · simp only [react, advance, hs, Option.getD_none]
      exact leads_refl r
  | lookup number hash => exact consulted_leads (.inr ⟨number, hash, rfl⟩)
  | replace l => exact absurd rfl (he l)

namespace Moment

variable (m : Moment σ)

theorem shown_of_leads {m : Moment σ} {new : List Effect}
    (h : m.after.effects = new ++ m.before.effects) :
    m.shown = new := by
  simp [shown, h]

/-- In a moment a replica moves, and the messages that it keeps are those that it had, heard or
signed. -/
theorem moves {m : Moment σ} (he : ∀ l, m.event ≠ .replace l) :
    m.after.effects = m.shown ++ m.before.effects ∧
      Moves m.before.stance m.heard m.before.stance (m.shown.filter Effect.isSpoken)
        m.after.stance ∧
      ∀ c ∈ m.after.queued, c ∈ m.before.queued ∨ m.heard = some c ∨ .broadcast c ∈ m.shown := by
  obtain ⟨new, hn, hm, hq⟩ := react_leads m.before he
  obtain rfl := shown_of_leads hn
  exact ⟨hn, hm, hq⟩

end Moment

end Replica

end BlockAgreement
