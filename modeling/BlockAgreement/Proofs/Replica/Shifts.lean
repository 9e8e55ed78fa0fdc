import BlockAgreement.Proofs.Replica.Standing

/-!
# How one moment changes the round

In one moment a replica goes to another round in one of few ways: it asks for the next round, it joins a
round that enough others ask for, it enters a round for which there is a quorum, or it goes on to a later
height. Each way is told with the requests that have been counted and what the replica says then.
-/

set_option autoImplicit false

namespace BlockAgreement

namespace Replica

variable {σ : Type} {r s t : Replica σ} {own later : List Message} {heard : Option Message}

structure Holds (r s : Replica σ) : Prop where
  signer : s.signer = r.signer
  ledger : s.ledger = r.ledger
  view : s.view? = r.view?
  waiting : s.waiting = r.waiting
  committee : s.committee = r.committee
  roundChanges : s.roundChanges = r.roundChanges

/-- The replica stays in its round. These messages were broadcast, and they are all that has become ready
if nothing was waiting. -/
structure Keeps (r s : Replica σ) (own : List Message) : Prop extends Holds r s where
  backlog : s.backlog.messages ⊆ r.backlog.messages
  agenda : r.backlog.messages = [] → s.agenda.Sublist (r.agenda ++ own)

theorem Holds.trans (hs : Holds r s) (ht : Holds s t) : Holds r t :=
  ⟨ht.signer.trans hs.signer, ht.ledger.trans hs.ledger, ht.view.trans hs.view,
    ht.waiting.trans hs.waiting, ht.committee.trans hs.committee, ht.roundChanges.trans hs.roundChanges⟩

theorem Keeps.trans (hs : Keeps r s own) (ht : Keeps s t later) : Keeps r t (own ++ later) where
  toHolds := hs.toHolds.trans ht.toHolds
  backlog := List.Subset.trans ht.backlog hs.backlog
  agenda hb := by
    have hbs := List.subset_nil.mp (hb ▸ hs.backlog)
    rw [← List.append_assoc]
    exact (ht.agenda hbs).trans ((hs.agenda hb).append_right later)

theorem Keeps.followed (hs : Keeps r s own) (ht : Keeps s t []) : Keeps r t own := by
  simpa using hs.trans ht

theorem Remains.keeps (h : Remains r s own) : Keeps r s own where
  toHolds := ⟨h.signer, h.ledger, h.view, h.waiting, h.committee, h.roundChanges⟩
  backlog := by rw [h.backlog]; exact List.Subset.refl _
  agenda _ := by rw [h.agenda]

theorem Keeps.refl (r : Replica σ) : Keeps r r [] := (Remains.refl r).keeps

theorem phase_keeps (r : Replica σ) (timer : Timer) (phase : Phase) :
    Keeps r { r with timer, phase } [] :=
  ⟨⟨rfl, rfl, rfl, rfl, rfl, rfl⟩, List.Subset.refl _, fun _ => by simp [Replica.agenda]⟩

theorem ended_keeps (r : Replica σ) : Keeps r { r with started := false } [] :=
  ⟨⟨rfl, rfl, rfl, rfl, rfl, rfl⟩, List.Subset.refl _, fun _ => by simp [Replica.agenda]⟩

theorem replay_keeps (r : Replica σ) : Keeps r r.replay [] := by
  unfold replay
  split
  · exact .refl r
  · refine ⟨⟨rfl, rfl, rfl, rfl, rfl, rfl⟩, fun c hc => Backlog.mem_messages_drain (.inr hc),
      fun hb => ?_⟩
    rename_i view _
    have hnone : (r.backlog.drain (disposition view r.waiting r.phase)).1.map (·.message) = [] := by
      refine List.eq_nil_iff_forall_not_mem.mpr fun c hc => ?_
      have hc := Backlog.mem_messages_drain (.inl hc)
      rw [hb] at hc
      cases hc
    simp [Replica.agenda, hnone]

section Frames

variable [Scheme]

theorem enterPhase_keeps (r : Replica σ) {phase : Phase} (hp : phase ≠ .newRound) :
    Keeps r (r.enterPhase phase) [] := by
  obtain ⟨timer, ht⟩ := extendTime_eq r phase
  unfold enterPhase
  dsimp only
  rw [if_neg hp, ht]
  exact (phase_keeps r timer phase).trans (replay_keeps _)

theorem beginPhase_keeps (r : Replica σ) :
    ∃ own, Keeps r (r.enterPhase .newRound) own ∧ (own = [] ∨ r.isProposer = true) := by
  obtain ⟨timer, ht⟩ := extendTime_eq r .newRound
  obtain ⟨own, ho, -, hp⟩ := takeHeld_remains { r with timer, phase := .newRound }
  refine ⟨own, ?_, hp⟩
  unfold enterPhase
  dsimp only
  rw [if_pos rfl, ht]
  simpa using ((phase_keeps r timer .newRound).trans ho.keeps).trans (replay_keeps _)

def entering (r : Replica σ) (head : Header) (a : Attempt) : Replica σ :=
  { r with
    roundChanges := .empty a.view.sequence r.committee
    attempt := some a
    committee := r.committee.choose (lastProposer head) a.view.round
    waiting := false }

end Frames

section Lift

variable (h : Keeps r s own)

include h

theorem Keeps.recount (roundChanges : RoundChanges) :
    Keeps { r with roundChanges } { s with roundChanges } own :=
  ⟨⟨h.signer, h.ledger, h.view, h.waiting, h.committee, rfl⟩, h.backlog, h.agenda⟩

theorem Keeps.adopt (ledger : σ) : Keeps { r with ledger } { s with ledger } own :=
  ⟨⟨h.signer, rfl, h.view, h.waiting, h.committee, h.roundChanges⟩, h.backlog, h.agenda⟩

theorem Keeps.catchUp (view : View) : Keeps (r.catchUp view) (s.catchUp view) own where
  signer := h.signer
  ledger := h.ledger
  view := (catchUp_view s view).trans (catchUp_view r view).symm
  waiting := rfl
  committee := h.committee
  roundChanges := congrArg (RoundChanges.clear · view.round) h.roundChanges
  backlog := h.backlog
  agenda := h.agenda

theorem Keeps.entering [Scheme] (head : Header) {a b : Attempt} (hv : b.view = a.view) :
    Keeps (r.entering head a) (s.entering head b) own where
  signer := h.signer
  ledger := h.ledger
  view := congrArg some hv
  waiting := rfl
  committee := by simp only [Replica.entering, h.committee, hv]
  roundChanges := by simp only [Replica.entering, h.committee, hv]
  backlog := h.backlog
  agenda := h.agenda

end Lift

section Shift

variable [Scheme] [Ledger σ] {view : View} {round : Round} {m : Message}

structure Joins (r : Replica σ) (view : View) (round : Round) (m : Message) : Prop where
  waits : r.waiting = true
  above : view.round < round
  weak : (r.roundChanges.add round m).1 = .ok (r.committee.faults + 1)

structure Leaves (r s : Replica σ) : Prop where
  signer : s.signer = r.signer
  active : s.waiting = false
  view : ∃ view committee, s.view? = some view ∧ (∀ old ∈ r.view?, old.sequence < view.sequence) ∧
    next? (Ledger.head s.ledger).number = some view.sequence ∧
    s.committee = Committee.choose committee (lastProposer (Ledger.head s.ledger)) view.round

inductive Shift (heard : Option Message) (r s : Replica σ) : Prop where
  | stay {own : List Message} (hk : Keeps r s own) (hw : Word r.signer own)
  /-- A message from another came too early and may be stored. -/
  | store {m : Message} (hm : heard = some m) (ho : m.sender ≠ r.signer.address) (hk : Holds r s)
  /-- The replica has another ledger and is still in its view. -/
  | adopt {ledger : σ} (hk : Keeps { r with ledger } s [])
  /-- A request is counted or refused. -/
  | count {view : View} {round : Round} {m : Message} (hm : heard = some m)
      (ha : r.position.Admits view round m)
      (hj : r.Joins view round m → (r.roundChanges.add round m).1 = .ok r.committee.quorum)
      (hk : Keeps { r with roundChanges := (r.roundChanges.add round m).2 } s [])
  /-- The replica asks for the next round. -/
  | ask {view : View} {round : Round} (hh : heard = none ∨ r.waiting = false)
      (hv : r.view? = some view) (hr : next? view.round = some round)
      (hk : Keeps (r.catchUp ⟨view.sequence, round⟩) s
        (Message.roundChange r.signer ⟨view.sequence, round⟩).toList)
  /-- A replica that waits asks for the round that enough others ask for. -/
  | join {view : View} {round : Round} {m : Message} (hm : heard = some m)
      (ha : r.position.Admits view round m) (hj : r.Joins view round m)
      (hk : Keeps ({ r with roundChanges := (r.roundChanges.add round m).2 }.catchUp
          ⟨view.sequence, round⟩) s (Message.roundChange r.signer ⟨view.sequence, round⟩).toList)
  /-- The time is up, and the replica asks for the round that enough others ask for. -/
  | follow {view : View} {round : Round} (hh : heard = none) (hw : r.waiting = false)
      (hv : r.view? = some view) (hr : view.round < round)
      (hq : r.roundChanges.maxRound? (r.committee.faults + 1) = some round)
      (hk : Keeps (r.catchUp ⟨view.sequence, round⟩) s
        (Message.roundChange r.signer ⟨view.sequence, round⟩).toList)
  /-- There is a quorum for the round, and it is entered. -/
  | enter {view : View} {round : Round} {m : Message} {a : Attempt} {own : List Message}
      (hm : heard = some m) (ha : r.position.Admits view round m)
      (hq : r.position.Decides view round m)
      (hn : next? (Ledger.head r.ledger).number = some view.sequence)
      (hv : a.view = ⟨view.sequence, round⟩) (hk : Keeps (r.entering (Ledger.head r.ledger) a) s own)
      (hp : own = [] ∨ s.isProposer = true)
  | leave (hl : Leaves r s)

theorem Holds.admits (h : Holds r s) :
    s.position.Admits view round m ↔ r.position.Admits view round m := by
  have hv : s.position.view = r.position.view := h.view
  have hc : s.position.committee = r.position.committee := h.committee
  constructor
  · exact fun ha => ⟨hv ▸ ha.current, ha.request, hc ▸ ha.member, ha.above⟩
  · exact fun ha => ⟨hv ▸ ha.current, ha.request, hc ▸ ha.member, ha.above⟩

omit [Scheme] [Ledger σ] in
theorem Holds.joins (h : Holds r s) : s.Joins view round m ↔ r.Joins view round m := by
  constructor
  · exact fun hj => ⟨h.waiting ▸ hj.waits, hj.above, h.committee ▸ h.roundChanges ▸ hj.weak⟩
  · exact fun hj => ⟨h.waiting ▸ hj.waits, hj.above, h.committee ▸ h.roundChanges ▸ hj.weak⟩

omit [Scheme] [Ledger σ] in
theorem Holds.isProposer (h : Holds r s) : s.isProposer = r.isProposer := by
  rw [Replica.isProposer, h.committee, h.signer, Replica.isProposer]

theorem Leaves.of_holds (hs : Holds r s) (hl : Leaves s t) : Leaves r t := by
  obtain ⟨view, committee, hview, hlater, hnext, hcommittee⟩ := hl.view
  exact ⟨hl.signer.trans hs.signer, hl.active, view, committee, hview, hs.view ▸ hlater, hnext,
    hcommittee⟩

theorem Leaves.holds (hl : Leaves r s) (ht : Holds s t) : Leaves r t := by
  obtain ⟨view, committee, hview, hlater, hnext, hcommittee⟩ := hl.view
  refine ⟨ht.signer.trans hl.signer, ht.waiting.trans hl.active, view, committee, ht.view.trans hview,
    hlater, ?_, ?_⟩
  · rw [ht.ledger]
    exact hnext
  · rw [ht.ledger, ht.committee]
    exact hcommittee

theorem Shift.of_keeps (hk : Keeps r s []) (h : Shift heard s t) : Shift heard r t := by
  have hc := hk.committee
  have hrc := hk.roundChanges
  have hsigned (view : View) : Message.roundChange s.signer view = Message.roundChange r.signer view := by
    rw [hk.signer]
  cases h with
  | stay ht hw => exact .stay (hk.trans ht) (hk.signer ▸ hw)
  | store hm ho ht => exact .store hm (hk.signer ▸ ho) (hk.toHolds.trans ht)
  | adopt ht => exact .adopt ((hk.adopt _).trans ht)
  | count hm ha hj ht =>
    rw [hrc] at ht
    refine .count hm (hk.admits.mp ha) (fun h => ?_) ((hk.recount _).trans ht)
    rw [← hrc, ← hc]
    exact hj (hk.joins.mpr h)
  | ask hh hv hr ht =>
    rw [hsigned] at ht
    exact .ask (hk.waiting ▸ hh) (hk.view ▸ hv) hr ((hk.catchUp _).trans ht)
  | join hm ha hj ht =>
    rw [hrc, hsigned] at ht
    exact .join hm (hk.admits.mp ha) (hk.joins.mp hj) (((hk.recount _).catchUp _).trans ht)
  | follow hh hw hv hr hq ht =>
    rw [hrc, hc] at hq
    rw [hsigned] at ht
    exact .follow hh (hk.waiting ▸ hw) (hk.view ▸ hv) hr hq ((hk.catchUp _).trans ht)
  | enter hm ha hq hn hv ht hp =>
    rw [hk.ledger] at hn ht
    refine .enter hm (hk.admits.mp ha) ?_ hn hv ((hk.entering _ rfl).trans ht) hp
    have hd : (s.roundChanges.add _ _).1 = .ok s.committee.quorum ∧ (s.waiting = true ∨ _) := hq
    rw [hrc, hc, hk.waiting] at hd
    exact hd
  | leave hl => exact .leave (hl.of_holds hk.toHolds)

theorem Shift.keeps (h : Shift heard r s) (hk : Keeps s t []) : Shift heard r t := by
  cases h with
  | stay hs hw => exact .stay (hs.followed hk) hw
  | store hm ho hs => exact .store hm ho (hs.trans hk.toHolds)
  | adopt hs => exact .adopt (hs.followed hk)
  | count hm ha hj hs => exact .count hm ha hj (hs.followed hk)
  | ask hh hv hr hs => exact .ask hh hv hr (hs.followed hk)
  | join hm ha hj hs => exact .join hm ha hj (hs.followed hk)
  | follow hh hw hv hr hq hs => exact .follow hh hw hv hr hq (hs.followed hk)
  | enter hm ha hq hn hv hs hp =>
    exact .enter hm ha hq hn hv (hs.followed hk) (hp.imp_right (hk.isProposer.trans ·))
  | leave hl => exact .leave (hl.holds hk.toHolds)

theorem Keeps.shift (h : Keeps r s []) : Shift heard r s := .stay h (word_nil _)

theorem Shift.refl (r : Replica σ) : Shift heard r r := (Keeps.refl r).shift

end Shift

section Rounds

variable [Scheme] {view : View} {round : Round} {m : Message}

theorem sendRoundChange_keeps (hv : r.view? = some view) (hr : view.round < round) :
    Keeps (r.catchUp ⟨view.sequence, round⟩) (r.sendRoundChange round)
      (Message.roundChange r.signer ⟨view.sequence, round⟩).toList := by
  rw [sendRoundChange_eq hv hr]
  exact (broadcast_remains _ _ _).keeps

theorem sendRoundChange_of_not_lt (hv : r.view? = some view) (hr : ¬ view.round < round) :
    r.sendRoundChange round = r := by
  simp only [sendRoundChange, hv, if_neg hr]

variable [Ledger σ]

theorem sendNextRoundChange_shift (hh : heard = none ∨ r.waiting = false) :
    Shift heard r r.sendNextRoundChange := by
  unfold sendNextRoundChange
  split
  · exact .refl r
  · rename_i round hr
    obtain ⟨view, hv, hr⟩ := Option.bind_eq_some_iff.mp hr
    exact .ask hh hv hr (sendRoundChange_keeps hv (lt_of_next? hr))

theorem startSequence_leaves {sequence : Height}
    (hn : next? (Ledger.head r.ledger).number = some sequence)
    (hle : ∀ old ∈ r.view?, old.sequence ≤ (Ledger.head r.ledger).number) :
    Leaves r (r.startSequence (Ledger.head r.ledger) sequence) := by
  have hv : ∀ old ∈ r.view?, old.sequence < sequence := fun old hold =>
    UInt64.lt_of_le_of_lt (hle old hold) (lt_of_next? hn)
  let head := Ledger.head r.ledger
  obtain ⟨archive, committee, new, he, -⟩ := refreshCommittee_eq r head
  let a : Attempt := .start ⟨sequence, 0⟩ (r.refreshCommittee head).committee
  obtain ⟨own, ho, -⟩ := beginPhase_keeps ((r.refreshCommittee head).entering head a)
  have hstart : Leaves r ((r.refreshCommittee head).entering head a) := by
    rw [he]
    exact ⟨rfl, rfl, ⟨sequence, 0⟩, committee, rfl, hv, hn, rfl⟩
  exact (hstart.holds ho.toHolds).holds (announceView_remains _ _).keeps.toHolds

omit [Ledger σ] in
theorem changeRound_keeps (r : Replica σ) (head : Header) (a : Attempt) (round : Round) :
    ∃ b own, b.view = ⟨a.view.sequence, round⟩ ∧
      Keeps (r.entering head b) (r.changeRound head a round) own ∧
      (own = [] ∨ (r.changeRound head a round).isProposer = true) := by
  let b : Attempt := a.next ⟨a.view.sequence, round⟩ r.committee
  obtain ⟨own, ho, hp⟩ := beginPhase_keeps (r.entering head b)
  obtain ⟨later, hl, hp'⟩ := proposeAgain_remains (r.enterView head b)
  have hlast := announceView_remains (r.enterView head b).proposeAgain ⟨a.view.sequence, round⟩
  have hk : Keeps (r.entering head b) (r.changeRound head a round) (own ++ later) :=
    (Keeps.trans ho hl.keeps).followed hlast.keeps
  refine ⟨b, own ++ later, rfl, hk, ?_⟩
  rw [hk.isProposer, List.append_eq_nil_iff]
  rcases hp with rfl | hp
  · refine hp'.imp (fun h => ⟨rfl, h⟩) fun h => ?_
    exact ho.isProposer.symm.trans h
  · exact .inr hp

theorem startRound_zero_or (r : Replica σ) :
    Keeps r (r.startRound 0) [] ∨ Leaves r (r.startRound 0) :=
  startRound_induction (P := fun s => Keeps r s [] ∨ Leaves r s) r 0
    (fun _ hn hle => .inr (startSequence_leaves hn hle)) (fun _ _ _ h0 => absurd rfl h0)
    (fun _ _ _ _ _ _ => .inl (.refl r)) fun _ => .inl r.ended_keeps

theorem startRound_zero_shift (r : Replica σ) : Shift heard r (r.startRound 0) := by
  rcases startRound_zero_or r with hs | h
  · exact hs.shift
  · exact .leave h

end Rounds

section Votes

variable [Scheme] {a b : Attempt} {archive : Archive} {phase : Phase} {x : Block} {view : View}
  {round : Round} {m : Message}

theorem voting_keeps (ha : r.attempt = some a) (hv : b.view = a.view) (hp : phase ≠ .newRound) :
    Keeps r (r.voting archive b phase) [] := by
  have hattempt : Keeps r { r with archive, attempt := some b } [] :=
    (archive_remains r archive).keeps.trans (attempt_remains (r := { r with archive }) ha hv).keeps
  exact hattempt.trans (enterPhase_keeps _ hp)

theorem decided_keeps (ha : r.attempt = some a) (hv : b.view = a.view) : Keeps r (r.decided b x) [] := by
  have hphase : Keeps r (r.voting r.archive { b with lock := some x.hash } .committed) [] :=
    voting_keeps ha hv (by decide)
  exact hphase.trans (emit_remains _ _).keeps

theorem released_keeps (ha : r.attempt = some a) (hv : b.view = a.view) : Keeps r (r.released b x) [] :=
  (decided_keeps ha hv).trans (attempt_remains (decided_attempt r b x) (by rfl)).keeps

variable [Ledger σ]

theorem voting_shift (ha : r.attempt = some a) (hv : b.view = a.view) (hp : phase ≠ .newRound)
    (hs : ∃ own, Remains (r.voting archive b phase) s own ∧ Word (r.voting archive b phase).signer own) :
    Shift heard r s := by
  have hkeeps : Keeps r (r.voting archive b phase) [] := voting_keeps ha hv hp
  obtain ⟨own, ho, hword⟩ := hs
  exact .stay (hkeeps.trans ho.keeps) (hkeeps.signer ▸ hword)

theorem finalized_shift {ledger : σ} (ha : r.attempt = some a) (hv : b.view = a.view) :
    Shift heard r ((r.finalized b x ledger).startRound 0) := by
  have hdecided : Keeps r (r.decided b x) [] := decided_keeps ha hv
  have hledger : Keeps { r with ledger } (r.finalized b x ledger) [] :=
    (hdecided.adopt ledger).trans (notify_remains _ _).keeps
  rcases startRound_zero_or (r.finalized b x ledger) with hs | hl
  · exact .adopt (hledger.trans hs)
  · have hleaves := hl.of_holds hledger.toHolds
    exact .leave ⟨hleaves.signer, hleaves.active, hleaves.view⟩

theorem decide_shift (ha : r.position.Admits view round m) (hq : r.position.Decides view round m) :
    Shift (some m) r ({ r with roundChanges := (r.roundChanges.add round m).2 }.startRound round) := by
  refine startRound_induction { r with roundChanges := (r.roundChanges.add round m).2 } round
    (fun sequence hn hle => ?_) (fun c hc hn _ _ => ?_) (fun _ _ _ _ _ _ => ?_) fun _ => ?_
  · have hl :=
      startSequence_leaves (r := { r with roundChanges := (r.roundChanges.add round m).2 }) hn hle
    exact .leave ⟨hl.signer, hl.active, hl.view⟩
  · obtain rfl : c.view = view := Option.some.inj ((view?_of_attempt hc).symm.trans ha.current)
    obtain ⟨b, own, hb, hk, hp⟩ := changeRound_keeps
      { r with roundChanges := (r.roundChanges.add round m).2 } (Ledger.head r.ledger) c round
    exact .enter rfl ha hq hn hb hk hp
  · exact .count rfl ha (fun _ => hq.1) (.refl _)
  · exact .count rfl ha (fun _ => hq.1) (ended_keeps _)

theorem Treats.shift {v : Except Rejection Unit} (h : r.Treats m v s) : Shift (some m) r s := by
  have harchive (archive : Archive) : Keeps r { r with archive } [] := (archive_remains r archive).keeps
  cases h with
  | refuse => exact .refl r
  | consult => exact (harchive _).shift
  | answer =>
    obtain ⟨own, ho, hword⟩ := sendCommitFor_remains _ _
    exact .stay ((harchive _).trans ho.keeps) hword
  | object _ hw => exact .of_keeps (harchive _) (sendNextRoundChange_shift (.inr hw))
  | accept hp => exact voting_shift hp.attempt (by rfl) (by decide) (sendPrepare_remains _)
  | support hp => exact voting_shift hp.attempt (by rfl) (by decide) (sendCommit_remains _)
  | countPrepare hc => exact (attempt_remains hc.attempt (by rfl)).keeps.shift
  | lock hc => exact voting_shift hc.attempt (by rfl) (by decide) (sendCommit_remains _)
  | countCommit hc => exact (attempt_remains hc.attempt (by rfl)).keeps.shift
  | finalize hc => exact finalized_shift hc.attempt (by rfl)
  | @release a x commits fault hc =>
    have hreleased : Keeps r (r.released { a with commits } x) [] := released_keeps hc.attempt (by rfl)
    exact .of_keeps hreleased (sendNextRoundChange_shift (.inr (hreleased.waiting.trans hc.active)))
  | tally ha _ hj => exact .count rfl ha (fun h => absurd ⟨h.waits, h.weak⟩ hj) (.refl _)
  | @join view round ha _ hw hj =>
    by_cases hlt : view.round < round
    · exact .join rfl ha ⟨hw, hlt, hj⟩ (sendRoundChange_keeps ha.current hlt)
    · have hsame := sendRoundChange_of_not_lt
        (r := { r with roundChanges := (r.roundChanges.add round m).2 }) ha.current hlt
      rw [hsame]
      exact .count rfl ha (fun h => absurd h.above hlt) (.refl _)
  | enter ha hd => exact decide_shift ha hd

omit [Scheme] [Ledger σ] in
theorem postpone_holds (r : Replica σ) (d : Delivery) : Holds r (r.postpone d) := by
  unfold postpone
  split
  · exact (drop_remains r _ _).keeps.toHolds
  · split
    · exact ⟨rfl, rfl, rfl, rfl, rfl, rfl⟩
    · exact (drop_remains r _ _).keeps.toHolds

theorem receive_shift (r : Replica σ) (d : Delivery) :
    Shift (some d.message) r (r.receive d) := by
  refine receive_induction r d (process_treats r d.message).shift (fun s hs => ?_)
    (fun s hfuture hother _ => ?_) fun s e hs => ?_
  · exact hs.keeps (relay_remains s _).keeps
  · obtain ⟨rfl, -⟩ := process_future hfuture
    exact .store rfl hother (postpone_holds s d)
  · exact hs.keeps (drop_remains s _ e).keeps

end Votes

section Inputs

variable [Scheme] [Ledger σ]

theorem handleTimeout_shift (r : Replica σ) (view : View) : Shift none r (r.handleTimeout view) := by
  have htold := (notify_remains r (.viewTimeout view)).keeps
  refine handleTimeout_induction r view (fun _ => .refl r) (fun round hv hw hlt hq => ?_) (fun _ _ => ?_)
    fun _ _ _ => ?_
  · exact .of_keeps htold (.follow rfl hw hv hlt hq (sendRoundChange_keeps hv hlt))
  · exact .of_keeps htold (startRound_zero_shift _)
  · exact .of_keeps htold (sendNextRoundChange_shift (.inl rfl))

/-- What any event does to the round. -/
theorem react_shift (r : Replica σ) (e : Event σ) :
    Shift (Moment.heard ⟨r, e⟩) r (r.react e) := by
  have hready (ready : List Delivery) (hs : ready.Sublist r.ready) : Keeps r { r with ready } [] :=
    ⟨⟨rfl, rfl, rfl, rfl, rfl, rfl⟩, List.Subset.refl _, fun _ => by
      simpa [Replica.agenda] using hs.map _⟩
  cases e with
  | start =>
    unfold react
    dsimp only
    split
    · exact .refl r
    · have hstarted : Keeps r { r with started := true } [] :=
        ⟨⟨rfl, rfl, rfl, rfl, rfl, rfl⟩, List.Subset.refl _, fun _ => by simp [Replica.agenda]⟩
      exact .of_keeps hstarted (startRound_zero_shift _)
  | stop =>
    exact .of_keeps (hready [] (List.nil_sublist _)) (Keeps.shift
      ⟨⟨rfl, rfl, rfl, rfl, rfl, rfl⟩, List.Subset.refl _, fun _ => List.Sublist.refl _⟩)
  | input i =>
    unfold react Moment.heard
    dsimp only
    split
    · cases i with
      | request b =>
        obtain ⟨own, ho, hword, -⟩ := handleRequest_remains r b
        exact .stay ho.keeps hword
      | message d => exact receive_shift r d
      | timeout view => exact handleTimeout_shift r view
      | headMoved => exact startRound_zero_shift r
    · cases i with
      | message d => exact (drop_remains r _ _).keeps.shift
      | _ => exact .refl r
  | process =>
    rcases Bool.eq_false_or_eq_true r.started with hs | hs
    · cases hr : r.ready with
      | nil =>
        simp only [react, advance, hs, hr, Option.getD_none]
        exact .refl r
      | cons d ready =>
        have htail : Keeps r { r with ready } [] := hready ready (hr ▸ List.sublist_cons_self _ _)
        simpa only [react, advance, Moment.heard, hs, hr, if_true, Option.getD_some,
          List.head?_cons, Option.map_some] using Shift.of_keeps htail (receive_shift { r with ready } d)
    · simp only [react, advance, hs, Option.getD_none]
      exact .refl r
  | lookup number hash =>
    exact Keeps.shift ⟨⟨rfl, rfl, rfl, rfl, rfl, rfl⟩, List.Subset.refl _, fun _ => by
      simp [Replica.agenda, react]⟩
  | replace ledger => exact .adopt (.refl _)

end Inputs

end Replica

end BlockAgreement
