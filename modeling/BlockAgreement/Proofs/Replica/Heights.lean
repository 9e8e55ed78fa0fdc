import BlockAgreement.Proofs.Replica.Counting
import BlockAgreement.Proofs.Replica.Following
import BlockAgreement.Proofs.Replica.Votes

/-!
# The height that a vote names

A replica votes for the block that it has accepted, which is for the height of its view, and so is every
block that it proposes itself. A Commit that answers an old Preprepare is for a block of the ledger, and
repeats the view of the Preprepare. Of that view only the round is looked at, as if it were one of the
block's height.
-/

set_option autoImplicit false

namespace BlockAgreement

namespace Replica

variable {σ : Type} [Scheme] [Ledger σ] {r s : Replica σ} {m : Message} {a : Attempt} {b : Block}

section Received

omit [Ledger σ] in
theorem broadcast_stance (r : Replica σ) (m : Option Message) (notice : Notice) :
    (r.broadcast m notice).stance = r.stance := by
  cases m with
  | none => rfl
  | some c => exact (relay_frame (r.emit (.broadcast c)) (Wire.encode c)).1

omit [Ledger σ] in
theorem sendPrepare_attempt (r : Replica σ) : r.sendPrepare.attempt = r.attempt := by
  unfold sendPrepare
  split
  · rfl
  · exact congrArg Stance.attempt (broadcast_stance r _ _)

omit [Ledger σ] in
theorem sendCommit_attempt (r : Replica σ) : r.sendCommit.attempt = r.attempt := by
  unfold sendCommit
  split
  · rfl
  · exact congrArg Stance.attempt (broadcast_stance r _ _)

omit [Ledger σ] in
theorem enterPhase_attempt (r : Replica σ) {phase : Phase} (hp : phase ≠ .newRound) :
    (r.enterPhase phase).attempt = r.attempt :=
  congrArg Stance.attempt (enterPhase_frame r hp).1

omit [Ledger σ] in
theorem acceptProposal_attempt {p : Preprepare} (ha : r.attempt = some a)
    (hl : a.lock = none ∨ a.lock = some p.proposal.hash) :
    (r.acceptProposal p).attempt = some { a with preprepare := some p } := by
  rw [acceptProposal_eq ha]
  split
  · rw [sendPrepare_attempt, enterPhase_attempt _ (by decide)]
  · rename_i hnone
    rw [if_pos (hl.resolve_left hnone), sendCommit_attempt, enterPhase_attempt _ (by decide)]

theorem handlePreprepare_of_proposes {p : Preprepare} {archive : Archive}
    (hp : r.stance.Proposes a p m archive) :
    r.handlePreprepare m = (.ok (), { r with archive }.acceptProposal p) := by
  have ha : r.attempt = some a := hp.attempt
  have hphase : r.phase = .newRound := hp.fresh
  have hcheck : r.checkMessage .preprepare p.view = .ok () := by
    rw [hp.view]
    exact checkMessage_eq ha hp.active (by decide) fun _ => rfl
  have hproposer : r.committee.isProposer m.sender = true := hp.proposer
  have hverify : r.verifyProposal p.proposal = (.ok (), { r with archive }) := by
    have hvalid : HeaderRules.verifyProposal r.ledger r.archive p.proposal = (.ok (), archive) := hp.valid
    have hhead : p.proposal.number = a.view.sequence ∧
        p.proposal.header.parentHash = (Ledger.head r.ledger).hash := ⟨hp.number, hp.parent⟩
    simp only [verifyProposal, view?_of_attempt ha, if_pos hhead, hvalid]
  simp only [handlePreprepare, hp.body, hcheck, hproposer, Bool.not_true, Bool.false_eq_true, if_false,
    hverify, hphase, if_true]

omit [Ledger σ] in
theorem handlePrepare_of_counts {prepares : Poll} (hc : r.stance.Counts a b .prepare m)
    (hadd : a.prepares.add m = .ok prepares)
    (hs : a.lock = some b.hash ∨ r.committee.quorum ≤ Attempt.supporters { a with prepares })
    (hn : r.phase < .prepared) :
    r.handlePrepare m =
      (.ok (), { r with attempt := some { a with prepares } }.lockAndCommit { a with prepares }) := by
  have ha : r.attempt = some a := hc.attempt
  have hsubject : r.checkSubject m = .ok ⟨a.view, b.hash⟩ :=
    checkSubject_eq ha hc.proposal hc.active hc.proposed (by simp [hc.kind]) hc.subject
  simp only [handlePrepare, hsubject, ha, hadd]
  exact if_pos ⟨hs, hn⟩

omit [Ledger σ] in
theorem lockAndCommit_attempt (r : Replica σ) (a : Attempt) :
    (r.lockAndCommit a).attempt = some a.locked := by
  unfold lockAndCommit
  rw [sendCommit_attempt, enterPhase_attempt _ (by decide)]

theorem receive_attempt {d : Delivery} (h : r.process d.message = (.ok (), s)) :
    (r.receive d).attempt = s.attempt := by
  obtain ⟨gossip, sends, he, -⟩ := receive_acted h
  rw [he]

def authorBefore (r : Replica σ) (n : Height) : Option Address :=
  ((previous? n).bind fun k => if k = 0 then none else Ledger.headerAt? r.ledger k).bind (·.author)

/-- The ledger has the proposal, and it is the sender's turn in the round of the Preprepare at the height
of the proposal. -/
theorem isCommittedProposal_iff {p : Preprepare} : (r.isCommittedProposal m p).1 = true ↔
    (∃ h, Ledger.headerOf? r.ledger p.proposal.hash = some h ∧ h.number = p.proposal.number) ∧
      ∃ s, (r.archive.parentSnapshot r.ledger p.proposal.number p.proposal.header.parentHash).1 = .ok s ∧
        (s.committee.choose (r.authorBefore p.proposal.number) p.view.round).isProposer m.sender := by
  unfold isCommittedProposal
  dsimp only
  split
  · rename_i hnone
    simp [hnone]
  · rename_i h hh
    split
    · rename_i hn
      simp [hh, hn]
    · rename_i hn
      rw [not_not] at hn
      split
      · rename_i hs
        simp [hs]
      · rename_i hs
        simp [hh, hn, hs, authorBefore]

omit [Scheme] [Ledger σ] in
theorem checkMessage_of_lt {view : View} (ha : r.attempt = some a) (hv : view < a.view) :
    r.checkMessage .preprepare view = .error .oldMessage := by
  have hnot : ¬ a.view < view := fun h => View.lt_irrefl _ (View.lt_trans hv h)
  simp [checkMessage, view?_of_attempt ha, checkView, hnot, hv]

theorem handlePreprepare_of_lt {p : Preprepare} (ha : r.attempt = some a) (hp : m.preprepare = .ok p)
    (hv : p.view < a.view) (hc : (r.isCommittedProposal m p).1 = false) :
    ∃ archive, r.handlePreprepare m = (.error .oldMessage, { r with archive }) := by
  have hcheck := checkMessage_of_lt ha hv
  obtain ⟨archive, hs, -⟩ := isCommittedProposal_spec r m p
  refine ⟨archive, ?_⟩
  have heq : r.isCommittedProposal m p = (false, { r with archive }) := Prod.ext hc hs
  simp only [handlePreprepare, hp, hcheck, heq]

end Received

namespace Moment

open Stance (broadcast_mem_voice)

/-- The replica hears an old Preprepare. Its ledger has the proposal, and it was the sender's turn in the
round of the Preprepare at the height of the proposal. -/
structure HearsOld (m : Moment σ) (q : Message) (p : Preprepare) : Prop where
  heard : m.heard = some q
  kind : q.kind = .preprepare
  body : q.preprepare = .ok p
  old : ∃ view, m.before.view? = some view ∧ p.view < view
  found : ∃ h, Ledger.headerOf? m.before.ledger p.proposal.hash = some h ∧
    h.number = p.proposal.number
  turn : ∃ s, (m.before.archive.parentSnapshot m.before.ledger p.proposal.number
      p.proposal.header.parentHash).1 = .ok s ∧
    (s.committee.choose (m.before.authorBefore p.proposal.number) p.view.round).isProposer q.sender

/-- The message is a vote for the proposal that the replica has accepted, or a Commit that answers an old
Preprepare. -/
def Backs (m : Moment σ) (c : Message) : Prop :=
  (∃ a b, m.after.attempt = some a ∧ a.proposal = some b ∧ c.subject = .ok ⟨a.view, b.hash⟩) ∨
    ∃ q p, c.kind = .commit ∧ c.subject = .ok ⟨p.view, p.proposal.hash⟩ ∧ m.HearsOld q p

variable {m : Moment σ} {c : Message}

theorem accepts {q : Message} {p : Preprepare} {archive : Archive} (hq : m.heard = some q)
    (hp : m.before.stance.Proposes a p q archive) (hl : a.lock = none ∨ a.lock = some p.proposal.hash) :
    m.after.attempt = some { a with preprepare := some p } := by
  obtain ⟨d, ready, rfl, hafter⟩ := receives hq
  have hp : ({ m.before with ready } : Replica σ).stance.Proposes a p d.message archive := hp
  have hprocess := process_eq (r := { m.before with ready }) hp.verified
    (Committee.contains_iff.mp hp.member)
  rw [hp.kind] at hprocess
  rw [hafter, receive_attempt (hprocess.trans (handlePreprepare_of_proposes hp))]
  exact acceptProposal_attempt (r := { m.before with ready, archive }) hp.attempt hl

theorem locks {q : Message} {prepares : Poll} (hq : m.heard = some q)
    (hc : m.before.stance.Counts a b .prepare q) (hadd : a.prepares.add q = .ok prepares)
    (hs : a.lock = some b.hash ∨
      m.before.committee.quorum ≤ Attempt.supporters { a with prepares })
    (hn : m.before.phase < .prepared) :
    m.after.attempt = some { a with prepares, lock := some b.hash } := by
  obtain ⟨d, ready, rfl, hafter⟩ := receives hq
  have hc : ({ m.before with ready } : Replica σ).stance.Counts a b .prepare d.message := hc
  have hprocess := process_eq (r := { m.before with ready }) hc.verified
    (Committee.contains_iff.mp hc.member)
  rw [hc.kind] at hprocess
  rw [hafter, receive_attempt (hprocess.trans (handlePrepare_of_counts hc hadd hs hn)),
    lockAndCommit_attempt, locked_eq (a := { a with prepares }) hc.proposal]

/-- An old Preprepare is dropped without a word unless the ledger has its proposal and it was the sender's
turn. -/
theorem committed_of_signed {q : Message} {p : Preprepare} (hq : m.heard = some q)
    (hadmits : m.before.stance.Admits q) (hk : q.kind = .preprepare) (hp : q.preprepare = .ok p)
    (ha : m.before.attempt = some a) (hv : p.view < a.view) (hc : c ∈ m.signed) :
    (m.before.isCommittedProposal q p).1 = true := by
  by_contra hnot
  obtain ⟨d, ready, rfl, hafter⟩ := receives hq
  have hadmits : ({ m.before with ready } : Replica σ).stance.Admits d.message := hadmits
  have hfalse : (({ m.before with ready } : Replica σ).isCommittedProposal d.message p).1 = false := by
    refine Bool.eq_false_iff.mpr fun h => hnot ?_
    have hspec := isCommittedProposal_iff.mp h
    exact isCommittedProposal_iff.mpr hspec
  obtain ⟨archive, hdrop⟩ := handlePreprepare_of_lt (r := { m.before with ready }) ha hp hv hfalse
  have hprocess := process_eq (r := { m.before with ready }) hadmits.verified
    (Committee.contains_iff.mp hadmits.member)
  rw [hk] at hprocess
  have heffects : m.after.effects =
      [.notify (.dropMessage d.message.sender d.message.kind (toString Rejection.oldMessage))] ++
        m.before.effects := by
    rw [hafter, receive, hprocess, hdrop]
    rfl
  rw [mem_signed, shown_of_leads heffects] at hc
  simp at hc

theorem backs_of_move {s t : Stance σ} {es : List Effect}
    (hm : Stance.Move m.before.stance m.heard s es t) (hc : .broadcast c ∈ es) (hcs : c ∈ m.signed)
    (hk : c.kind = .prepare ∨ c.kind = .commit) : m.Backs c := by
  cases hm with
  | propose => simp [(Message.signed_spec (broadcast_mem_voice.mp hc)).1] at hk
  | ask => simp [(Message.signed_spec (broadcast_mem_voice.mp hc)).1] at hk
  | @accept a p q archive hq hp hl =>
    exact .inl ⟨_, p.proposal, accepts hq hp (.inl hl), rfl,
      (Message.prepare_spec (broadcast_mem_voice.mp hc)).2⟩
  | @support a p q archive hq hp hl =>
    exact .inl ⟨_, p.proposal, accepts hq hp (.inr hl), rfl,
      (Message.commit_spec (broadcast_mem_voice.mp hc)).2.1⟩
  | @answer a p q header archive hq hadmits ha hkind hbody hv hh hn =>
    obtain ⟨hcommit, hsubject, -⟩ := Message.commit_spec (broadcast_mem_voice.mp hc)
    have hcommitted := committed_of_signed hq hadmits hkind hbody ha hv hcs
    obtain ⟨hfound, hturn⟩ := isCommittedProposal_iff.mp hcommitted
    exact .inr ⟨q, p, hcommit, hsubject, hq, hkind, hbody, ⟨a.view, view?_of_attempt ha, hv⟩, hfound,
      hturn⟩
  | @lock a b q prepares hq hcount hadd hs hn =>
    exact .inl ⟨_, b, locks hq hcount hadd hs hn, hcount.proposal,
      (Message.commit_spec (broadcast_mem_voice.mp hc)).2.1⟩
  | _ => simp at hc

theorem exists_move (hc : c ∈ m.signed) :
    ∃ s es t, Stance.Move m.before.stance m.heard s es t ∧ .broadcast c ∈ es := by
  rw [mem_signed] at hc
  by_cases he : ∃ l, m.event = .replace l
  · obtain ⟨l, he⟩ := he
    rw [(replaced he).1] at hc
    cases hc
  · obtain ⟨-, hm, -⟩ := moves (m := m) (by simpa using he)
    exact hm.exists_move (List.mem_filter.mpr ⟨hc, rfl⟩)

theorem proposes_height (hc : c ∈ m.signed) (hk : c.kind = .preprepare) :
    ∃ p : Preprepare, c.body = Wire.encode p ∧ p.proposal.number = p.view.sequence := by
  obtain ⟨s, es, t, hm, hes⟩ := exists_move hc
  cases hm with
  | @propose _ a b ha hb hp hn hr =>
    exact ⟨⟨a.view, b⟩, (Message.signed_spec (broadcast_mem_voice.mp hes)).2.1, hb⟩
  | ask => simp [(Message.signed_spec (broadcast_mem_voice.mp hes)).1] at hk
  | accept => simp [(Message.prepare_spec (broadcast_mem_voice.mp hes)).1] at hk
  | support => simp [(Message.commit_spec (broadcast_mem_voice.mp hes)).1] at hk
  | answer => simp [(Message.commit_spec (broadcast_mem_voice.mp hes)).1] at hk
  | lock => simp [(Message.commit_spec (broadcast_mem_voice.mp hes)).1] at hk
  | _ => simp at hes

end Moment

variable {start : Replica σ} {h : List (Moment σ)}

/-- In every run, a Prepare or a Commit is for a block of the height that it names, which the replica has
accepted; or it is a Commit that answers an old Preprepare and names the height that this one does. What
the replica proposes itself is of the height that it names. -/
theorem votes_name_height {signer : Signer} {ledger : σ} {archive : Archive} {gossip : Gossip}
    {timer : Timer} {capacity : Nat}
    (hc : create signer ledger archive gossip timer capacity = .ok start) (hr : Run start h r) :
    ∀ m ∈ h, ∀ c ∈ m.signed,
      (c.kind = .prepare ∨ c.kind = .commit → ∃ x b, c.subject = .ok x ∧ b.hash = x.digest ∧
        ((∃ a, m.after.attempt = some a ∧ a.proposal = some b ∧ a.view = x.view ∧
            b.number = x.view.sequence) ∨
          c.kind = .commit ∧ ∃ q, m.HearsOld q ⟨x.view, b⟩)) ∧
      (c.kind = .preprepare →
        ∃ p : Preprepare, c.body = Wire.encode p ∧ p.proposal.number = p.view.sequence) := by
  intro m hm c hcs
  refine ⟨fun hk => ?_, Moment.proposes_height hcs⟩
  obtain ⟨s, es, t, hmove, hes⟩ := Moment.exists_move hcs
  rcases Moment.backs_of_move hmove hes hcs hk with ⟨a, b, ha, hb, hs⟩ | ⟨q, p, hcommit, hs, hold⟩
  · obtain ⟨-, -, -, -, -, hnone, -⟩ := create_spec hc
    obtain ⟨k, hbefore, -⟩ := hr.before hm
    have hafter : Run start (m :: k) m.after := .step m.event hbefore
    have hfits := hafter.coherent hnone a ha
    exact ⟨⟨a.view, b.hash⟩, b, hs, rfl, .inl ⟨a, ha, hb, rfl, hfits.number b hb⟩⟩
  · exact ⟨⟨p.view, p.proposal.hash⟩, p.proposal, hs, rfl, .inr ⟨hcommit, q, hold⟩⟩

end Replica

namespace Pair

open Replica

attribute [local instance] Scheme.plain

/-- The first of two validators prepares the block that it proposed and commits to it, all at height 1. -/
theorem votes_name_height_first : ∃ start, replica first = .ok start ∧
    ((start.moments firstEvents).flatMap Moment.signed).map (·.kind) =
      [.commit, .prepare, .preprepare] ∧
    ∀ m ∈ start.moments firstEvents, ∀ c ∈ m.signed,
      (c.kind = .prepare ∨ c.kind = .commit → ∃ x b, c.subject = .ok x ∧ b.hash = x.digest ∧
        ((∃ a, m.after.attempt = some a ∧ a.proposal = some b ∧ a.view = x.view ∧
            b.number = x.view.sequence) ∨
          c.kind = .commit ∧ ∃ q, m.HearsOld q ⟨x.view, b⟩)) ∧
      (c.kind = .preprepare →
        ∃ p : Preprepare, c.body = Wire.encode p ∧ p.proposal.number = p.view.sequence) := by
  obtain ⟨start, hc, hk⟩ := exists_replica (k := first) (P := fun start =>
    ((start.moments firstEvents).flatMap Moment.signed).map (·.kind) =
      [.commit, .prepare, .preprepare]) (by decide +kernel)
  exact ⟨start, hc, hk, votes_name_height hc (moments_run start firstEvents)⟩

def successor : Block :=
  let unsealed : Block := .create
    { parentHash := block.hash, number := 2, timestamp := 2, marker := engineMarker, dataHash := 0
      vote := none, extra := .empty } [8]
  (unsealed.sealedBy second).getD unsealed

def advanced : Except HeaderFault (Replica MemoryLedger) :=
  Replica.create first (.ofHeaders [genesis, block.header, successor.header])
    (.empty 100 .roundRobin 8) (.empty 8 8) (.idle 10 20) 8

/-- It is at height 3, and the second validator sends it the block of height 2 again, in a view of
height 1. -/
def misnamedEvents : List (Event MemoryLedger) :=
  .start :: hear (Message.ofPreprepare second ⟨⟨1, 0⟩, successor⟩)

/-- It commits to the block in that view. -/
theorem votes_misname_height : ∃ start, advanced = .ok start ∧
    ∃ m ∈ start.moments misnamedEvents, ∃ c ∈ m.signed, c.kind = .commit ∧
      c.subject = .ok ⟨⟨1, 0⟩, successor.hash⟩ ∧
      ¬ ∃ x b, c.subject = .ok x ∧ b.hash = x.digest ∧ b.number = x.view.sequence ∧
        ((∃ a, m.after.attempt = some a ∧ a.proposal = some b) ∨ ∃ q, m.HearsOld q ⟨x.view, b⟩) := by
  obtain ⟨start, hc, m, hm, c, hcs, hk, hs, hnone, hheard⟩ := exists_ok (x := advanced) (P := fun start =>
    ∃ m ∈ start.moments misnamedEvents, ∃ c ∈ m.signed, c.kind = .commit ∧
      c.subject = .ok ⟨⟨1, 0⟩, successor.hash⟩ ∧ m.after.attempt.bind (·.proposal) = none ∧
      m.heard.map (·.preprepare) = some (.ok ⟨⟨1, 0⟩, successor⟩)) (by decide +kernel)
  refine ⟨start, hc, m, hm, c, hcs, hk, hs, ?_⟩
  rintro ⟨x, b, hx, -, hn, ⟨a, ha, hb⟩ | ⟨q, hold⟩⟩
  · rw [ha, Option.bind_some, hb] at hnone
    cases hnone
  · rw [hold.heard, Option.map_some, hold.body] at hheard
    obtain ⟨hview, rfl⟩ := Preprepare.mk.inj (Except.ok.inj (Option.some.inj hheard))
    rw [hview] at hn
    exact absurd hn (by decide +kernel)

end Pair

end BlockAgreement
