import BlockAgreement.Proofs.Replica.Heights
import BlockAgreement.Proofs.Replica.Turns

/-!
# Answers to old proposals

A Preprepare for a view that is over is answered with a Commit if its block is in the ledger and it was
the sender's turn. Whose turn it was the replica makes out from the headers of its ledger and the
snapshot after the block before. It comes to the same result as a replica that begins the view with that
block as its head, and as every replica that has taken part in it.
-/

set_option autoImplicit false

namespace BlockAgreement

section

variable {σ : Type} [Scheme] [Ledger σ] [LawfulLedger σ] {epoch : Epoch} {policy : ProposerPolicy}

def Snapshot.nominee (snap : Snapshot) (g : Header) (round : Round) : Option Address :=
  (snap.committee.choose (Replica.lastProposer g) round).proposer

/-- The ledger is a chain from its genesis block on, in which every header is found by its height and
has a snapshot. -/
structure Complete (epoch : Epoch) (policy : ProposerPolicy) (ledger : σ) : Prop where
  chained : Chained ledger
  genesis : ∃ g ∈ headers ledger, g.number = 0
  indexed : ∀ g ∈ headers ledger, Ledger.headerAt? ledger g.number = some g
  known : ∀ g ∈ headers ledger, ∃ snap, SnapshotOf epoch policy (Ledger.lookup ledger) g.hash snap

theorem exists_snapshotOf {ledger : σ} {a : Archive} (ha : a.Recalls epoch policy ledger) {g : Header}
    (h : (a.snapshot ledger g.number g.hash).1.isOk = true) :
    ∃ snap, SnapshotOf epoch policy (Ledger.lookup ledger) g.hash snap := by
  cases hs : (a.snapshot ledger g.number g.hash).1 with
  | error e =>
    rw [hs] at h
    cases h
  | ok snap => exact ⟨snap, (ha.snapshot _ _).2 snap hs⟩

omit [Ledger σ] [LawfulLedger σ] in
theorem Linked.exists_extends {hs : List Header} (hl : Linked hs) (h0 : ∃ g ∈ hs, g.number = 0)
    {b : Header} (hb : b ∈ hs) (hn : b.number ≠ 0) : ∃ g ∈ hs, b.Extends g := by
  induction hs with
  | nil => cases hb
  | cons k hs ih =>
    obtain ⟨g, hg, hzero⟩ := h0
    rcases List.mem_cons.mp hb with rfl | hlater
    · cases hs with
      | nil => exact absurd (List.mem_singleton.mp hg ▸ hzero) hn
      | cons j hs => exact ⟨j, by simp, (List.isChain_cons_cons.mp hl).1⟩
    · have hbelow : g ∈ hs := by
        refine (List.mem_cons.mp hg).resolve_left fun heq => ?_
        have hlt := hl.number_lt b hlater
        rw [← heq, hzero] at hlt
        exact absurd hlt (Nat.not_lt_zero _)
      obtain ⟨j, hj, hext⟩ := ih hl.tail ⟨g, hbelow, hzero⟩ hlater
      exact ⟨j, List.mem_cons_of_mem _ hj, hext⟩

namespace Precedes

variable {ledger : σ} {n : Height} {g g' : Header} {snap snap' : Snapshot}

theorem unique (h : Precedes epoch policy ledger n g snap) (h' : Precedes epoch policy ledger n g' snap')
    (hc : Chained ledger) : g = g' ∧ snap = snap' := by
  have hnumber : g.number = g'.number := by
    have h1 := toNat_of_next? h.next
    have h2 := toNat_of_next? h'.next
    exact UInt64.toNat_inj.mp (by omega)
  obtain rfl := hc.linked.eq_of_number h.mem h'.mem hnumber
  exact ⟨rfl, h.snapshot.unique h'.snapshot⟩

theorem parentSnapshot_eq {a : Archive} (h : Precedes epoch policy ledger n g snap)
    (ha : a.Recalls epoch policy ledger) (hc : Chained ledger) :
    (a.parentSnapshot ledger n g.hash).1 = .ok snap := by
  rw [Archive.parentSnapshot, previous?_of_next? h.next]
  exact Archive.snapshot_of_mem ha hc h.mem h.snapshot

end Precedes

theorem Complete.precedes {ledger : σ} (hl : Complete epoch policy ledger) {b : Header}
    (hb : b ∈ headers ledger) (hn : b.number ≠ 0) :
    ∃ g snap, Precedes epoch policy ledger b.number g snap ∧ b.parentHash = g.hash := by
  obtain ⟨g, hg, hparent, hnext⟩ := hl.chained.linked.exists_extends hl.genesis hb hn
  obtain ⟨snap, hs⟩ := hl.known g hg
  exact ⟨g, snap, ⟨hg, hnext, hs⟩, hparent⟩

namespace Replica

variable {start r t : Replica σ} {h : List (Moment σ)} {m : Message} {p : Preprepare} {b g : Header}
  {snap : Snapshot}

theorem authorBefore_eq {n : Height} (hl : Complete epoch policy r.ledger)
    (hg : Precedes epoch policy r.ledger n g snap) : r.authorBefore n = lastProposer g := by
  rw [authorBefore, previous?_of_next? hg.next, Option.bind_some, hl.indexed g hg.mem, lastProposer]
  split <;> rfl

theorem isCommittedProposal_eq (hr : r.archive.Recalls epoch policy r.ledger)
    (hl : Complete epoch policy r.ledger) (hb : b ∈ headers r.ledger)
    (hg : Precedes epoch policy r.ledger b.number g snap) (hparent : b.parentHash = g.hash)
    (hblock : p.proposal.header.withoutCommittedSeals = b.withoutCommittedSeals) :
    (r.isCommittedProposal m p).1 = true ↔ snap.nominee g p.view.round = some m.sender := by
  have hnumber : p.proposal.number = b.number := (congrArg Header.number hblock :)
  have hphash : p.proposal.header.parentHash = g.hash :=
    (congrArg Header.parentHash hblock :).trans hparent
  have hhash : p.proposal.hash = b.hash := congrArg hashOf hblock
  have hfound : ∃ k, Ledger.headerOf? r.ledger p.proposal.hash = some k ∧
      k.number = p.proposal.number := by
    have hlookup := hl.chained.lookup_mem hb
    rw [← hhash] at hlookup
    obtain ⟨k, hk, hsame⟩ := Option.map_eq_some_iff.mp hlookup
    exact ⟨k, hk, (congrArg Header.number hsame).trans hnumber.symm⟩
  have hsnap := hg.parentSnapshot_eq hr hl.chained
  rw [isCommittedProposal_iff, hnumber, hphash, hsnap, authorBefore_eq hl hg]
  rw [← hnumber]
  simp [hfound, Snapshot.nominee, Committee.isProposer]

omit [LawfulLedger σ] in
theorem handlePreprepare_of_committed {a : Attempt} (ha : r.attempt = some a) (hp : m.preprepare = .ok p)
    (hv : p.view < a.view) (hc : (r.isCommittedProposal m p).1 = true) :
    ∃ archive, r.handlePreprepare m =
      (.ok (), ({ r with archive } : Replica σ).sendCommitFor ⟨p.view, p.proposal.hash⟩) := by
  have hcheck := checkMessage_of_lt ha hv
  obtain ⟨archive, hs, -⟩ := isCommittedProposal_spec r m p
  have heq : r.isCommittedProposal m p = (true, { r with archive }) := Prod.ext hc hs
  exact ⟨archive, by simp only [handlePreprepare, hp, hcheck, heq]⟩

omit [LawfulLedger σ] in
theorem receive_broadcasts {d : Delivery} {new : List Effect}
    (h : (r.process d.message).2.effects = new ++ r.effects) :
    ∃ all, (r.receive d).effects = all ++ r.effects ∧ Effect.broadcasts all = Effect.broadcasts new := by
  have hend {s : Replica σ} (last : List Effect) (hs : s.effects = new ++ r.effects)
      (hl : Effect.broadcasts last = []) : ∃ all, last ++ s.effects = all ++ r.effects ∧
        Effect.broadcasts all = Effect.broadcasts new :=
    ⟨last ++ new, by rw [hs, List.append_assoc], by rw [Effect.broadcasts_append, hl, List.nil_append]⟩
  rcases hp : r.process d.message with ⟨e | ⟨⟩, s⟩
  · rw [hp] at h
    rcases receive_error hp with hr | ⟨-, view, backlog, -, -, hr⟩
    · rw [hr]
      exact hend [_] h rfl
    · rw [hr]
      exact hend [] h rfl
  · rw [hp] at h
    obtain ⟨gossip, sends, hr, hsends⟩ := receive_acted hp
    rw [hr]
    refine hend sends h (List.filterMap_eq_nil_iff.mpr fun e he => ?_)
    obtain ⟨a, rfl⟩ := hsends e he
    rfl

end Replica

namespace Replica.Moment

variable {m : Moment σ} {q : Message} {p : Preprepare} {b : Header}

/-- The replica hears a signed Preprepare for a view that is over, of a block in its ledger that is of the
height of that view. -/
structure HearsBlock (m : Moment σ) (q : Message) (p : Preprepare) (b : Header) : Prop where
  heard : m.heard = some q
  verified : q.verify = .ok ()
  kind : q.kind = .preprepare
  body : q.preprepare = .ok p
  old : ∃ view, m.before.view? = some view ∧ p.view < view
  mem : b ∈ headers m.before.ledger
  height : b.number = p.view.sequence
  block : p.proposal.header.withoutCommittedSeals = b.withoutCommittedSeals

theorem HearsBlock.signed_eq (hm : m.HearsBlock q p b) :
    m.signed = if q.sender ∈ m.before.committee.members ∧ (m.before.isCommittedProposal q p).1 = true
      then (Message.commit m.before.signer ⟨p.view, p.proposal.hash⟩).toList else [] := by
  obtain ⟨view, hview, hold⟩ := hm.old
  obtain ⟨a, ha, rfl⟩ := Option.map_eq_some_iff.mp hview
  obtain ⟨d, ready, rfl, hafter⟩ := receives hm.heard
  let r : Replica σ := { m.before with ready }
  -- what is ready has no part in the decision
  have hspec : (r.isCommittedProposal d.message p).1 = true ↔
      (m.before.isCommittedProposal d.message p).1 = true := by
    rw [isCommittedProposal_iff, isCommittedProposal_iff]
    rfl
  have hspoken : ∃ new, (r.process d.message).2.effects = new ++ r.effects ∧
      Effect.broadcasts new = if d.message.sender ∈ r.committee.members ∧
        (r.isCommittedProposal d.message p).1 = true
        then (Message.commit r.signer ⟨p.view, p.proposal.hash⟩).toList else [] := by
    by_cases hmember : d.message.sender ∈ r.committee.members
    · have hprocess := process_eq hm.verified hmember
      rw [hm.kind] at hprocess
      dsimp only at hprocess
      cases hc : (r.isCommittedProposal d.message p).1 with
      | false =>
        obtain ⟨archive, hp⟩ := handlePreprepare_of_lt (r := r) ha hm.body hold hc
        exact ⟨[], by rw [hprocess, hp, List.nil_append], by simp [Effect.broadcasts]⟩
      | true =>
        obtain ⟨archive, hp⟩ := handlePreprepare_of_committed (r := r) ha hm.body hold hc
        obtain ⟨-, new, hnew, hspoken, -⟩ := broadcast_reports { r with archive }
          (Message.commit r.signer ⟨p.view, p.proposal.hash⟩) (.commit ⟨p.view, p.proposal.hash⟩)
        exact ⟨new, by rw [hprocess, hp]; exact hnew, by rw [hspoken, if_pos ⟨hmember, rfl⟩]⟩
    · refine ⟨[], ?_, by simp [hmember, Effect.broadcasts]⟩
      rcases process_forged (r := r) (m := d.message) (.inr hmember) with hp | hp <;> rw [hp] <;> rfl
  obtain ⟨new, hnew, hspoken⟩ := hspoken
  obtain ⟨all, hall, hbroadcasts⟩ := receive_broadcasts hnew
  rw [← hafter] at hall
  rw [signed_of_effects hall, hbroadcasts, hspoken]
  simp only [hspec, r]

end Replica.Moment

namespace Replica

section Beginning

variable {t : Replica σ} {ledger : σ} {view : View} {sequence : Height} {g : Header} {snap : Snapshot}

/-- The replica is in the view, which has begun, after a run from its creation on a growing chain. Its
blocks are all in the given ledger. -/
structure Begun (epoch : Epoch) (policy : ProposerPolicy) (ledger : σ) (view : View) (t : Replica σ) :
    Prop where
  run : ∃ signer l gossip timer snapshots capacity start h,
    create signer l (.empty epoch policy snapshots) gossip timer capacity = .ok start ∧
      Run start h t ∧ ∀ m ∈ h, m.Grounded
  within : headers t.ledger ⊆ headers ledger
  view : t.view? = some view
  active : t.waiting = false

theorem Begun.proposer (ht : Begun epoch policy ledger view t) (hc : Chained ledger)
    (hg : Precedes epoch policy ledger view.sequence g snap) :
    t.committee.proposer = snap.nominee g view.round := by
  obtain ⟨_, _, _, _, _, _, start, h, hcreate, hr, hgrounded⟩ := ht.run
  obtain ⟨-, -, -, -, -, hn, -⟩ := create_spec hcreate
  obtain ⟨-, hstart, -⟩ := create_recalls hcreate
  obtain ⟨a, ha, rfl⟩ := Option.map_eq_some_iff.mp ht.view
  obtain ⟨g', snap', happ⟩ := hr.appointed hn hstart hgrounded a ha
  have hprecedes := happ.precedes.grow (show headers t.stance.ledger ⊆ _ from ht.within) hc.collisionless
  obtain ⟨rfl, rfl⟩ := hprecedes.unique hg hc
  exact happ.proposer ht.active

omit [LawfulLedger σ] in
theorem startSequence_holds (t : Replica σ) (head : Header) (sequence : Height) :
    Holds ((t.refreshCommittee head).entering head
      (.start ⟨sequence, 0⟩ (t.refreshCommittee head).committee)) (t.startSequence head sequence) := by
  obtain ⟨own, ho, -⟩ := beginPhase_keeps ((t.refreshCommittee head).entering head
    (.start ⟨sequence, 0⟩ (t.refreshCommittee head).committee))
  exact ho.toHolds.trans (announceView_remains _ _).keeps.toHolds

/-- A replica that has no view yet begins with the height after its head, and goes from there to any
round. -/
theorem startRound_nominee (hn : t.attempt = none) (ha : t.archive.Recalls epoch policy t.ledger)
    (hc : Chained t.ledger) (hhead : Ledger.head t.ledger = g)
    (hg : Precedes epoch policy t.ledger sequence g snap) (round : Round) :
    ((t.startRound 0).startRound round).view? = some ⟨sequence, round⟩ ∧
      ((t.startRound 0).startRound round).committee.proposer = snap.nominee g round := by
  have hstance := (refreshCommittee_frame t g).1
  have hholds := startSequence_holds t g sequence
  have hcom : (t.refreshCommittee g).committee = snap.committee := by
    refine (congrArg Stance.committee hstance :).trans ?_
    subst hhead
    exact Stance.refreshed_committee (s := t.stance) ha hc hg.snapshot
  have hledger : (t.startSequence g sequence).ledger = t.ledger :=
    hholds.ledger.trans ((congrArg Stance.ledger hstance :).trans (Stance.refreshed_ledger _ _))
  have hcommittee :
      (t.startSequence g sequence).committee = snap.committee.choose (lastProposer g) 0 := by
    rw [hholds.committee]
    exact congrArg (fun c : Committee => c.choose (lastProposer g) 0) hcom
  obtain ⟨a, hattempt, hview⟩ := Option.map_eq_some_iff.mp hholds.view
  replace hview : a.view = ⟨sequence, 0⟩ := hview
  -- once begun, the height is above the head, so that only another round of it can be entered
  have hlater : ¬ sequence ≤ g.number := by
    have hnext := toNat_of_next? hg.next
    rw [UInt64.le_iff_toNat_le]
    omega
  have hfirst : t.startRound 0 = t.startSequence g sequence := by
    simp only [startRound, hhead, hg.next, hn]
  rw [hfirst]
  by_cases h0 : round = 0
  · have hstay : (t.startSequence g sequence).startRound round = t.startSequence g sequence := by
      simp [startRound, hledger, hhead, hg.next, hattempt, hview, h0, hlater]
    rw [hstay, hcommittee, h0]
    exact ⟨hholds.view, rfl⟩
  · have hgo : (t.startSequence g sequence).startRound round =
        (t.startSequence g sequence).changeRound g a round := by
      simp [startRound, hledger, hhead, hg.next, hattempt, hview, h0, hlater]
    obtain ⟨b, own, hb, ho, -⟩ := changeRound_keeps (t.startSequence g sequence) g a round
    rw [hgo]
    refine ⟨ho.view.trans (congrArg some (hb.trans (by rw [hview]))), ?_⟩
    rw [ho.committee]
    show (Committee.choose _ (lastProposer g) b.view.round).proposer = _
    rw [hcommittee, hb]
    exact Committee.choose_congr rfl rfl _ _

/-- The replica has just been created, and its chain is that of the given ledger up to the block. -/
structure Created (epoch : Epoch) (policy : ProposerPolicy) (ledger : σ) (g : Header) (t : Replica σ) :
    Prop where
  create : ∃ signer l gossip timer snapshots capacity,
    Replica.create signer l (.empty epoch policy snapshots) gossip timer capacity = .ok t
  chained : Chained t.ledger
  within : headers t.ledger ⊆ headers ledger
  head : Ledger.head t.ledger = g

theorem Created.nominee (ht : Created epoch policy ledger g t) (hc : Chained ledger)
    (hg : Precedes epoch policy ledger sequence g snap) (round : Round) :
    ((t.startRound 0).startRound round).view? = some ⟨sequence, round⟩ ∧
      ((t.startRound 0).startRound round).committee.proposer = snap.nominee g round := by
  obtain ⟨_, l, _, _, _, _, hcreate⟩ := ht.create
  obtain ⟨-, -, -, hl, -, hn, -⟩ := create_spec hcreate
  obtain ⟨s, hrecalls, hs, -⟩ := create_recalls hcreate
  have hprecedes : Precedes epoch policy t.ledger sequence g s :=
    ⟨ht.head ▸ ht.chained.head_mem, hg.next, by rw [← ht.head, hl]; exact hs⟩
  obtain ⟨-, rfl⟩ := (hprecedes.grow ht.within hc.collisionless).unique hg hc
  exact startRound_nominee hn hrecalls ht.chained ht.head hprecedes round

end Beginning

variable {start r : Replica σ} {h : List (Moment σ)} {q : Message} {p : Preprepare} {b : Header}

/-- A replica that hears an old Preprepare, of a block in its ledger, answers with a Commit if the
sender is a member of the committee and the one whose turn it was, and says nothing otherwise. Every
replica takes the same one for the proposer, whether it has begun that view in the course of a run or is
created anew on the chain up to the block before and goes to that view. -/
theorem old_preprepare_answered {signer : Signer} {ledger : σ} {gossip : Gossip} {timer : Timer}
    {snapshots capacity : Nat}
    (hc : create signer ledger (.empty epoch policy snapshots) gossip timer capacity = .ok start)
    (hr : Run start h r) (hg : ∀ m ∈ h, m.Grounded) {m : Moment σ} (hm : m ∈ h)
    (hl : Complete epoch policy m.before.ledger) (hq : m.HearsBlock q p b) (hb : b.number ≠ 0) :
    ∃ g snap, Precedes epoch policy m.before.ledger p.view.sequence g snap ∧
      m.signed = (if q.sender ∈ m.before.committee.members ∧
          snap.nominee g p.view.round = some q.sender
        then (Message.commit signer ⟨p.view, p.proposal.hash⟩).toList else []) ∧
      (∀ t, Begun epoch policy m.before.ledger p.view t →
        t.committee.proposer = snap.nominee g p.view.round) ∧
      ∀ t, Created epoch policy m.before.ledger g t →
        ((t.startRound 0).startRound p.view.round).view? = some p.view ∧
          ((t.startRound 0).startRound p.view.round).committee.proposer =
            snap.nominee g p.view.round := by
  obtain ⟨-, -, hsigner, -⟩ := create_spec hc
  obtain ⟨-, hstart, -⟩ := create_recalls hc
  obtain ⟨k, hk, hsuf⟩ := hr.before hm
  have hgk : ∀ x ∈ k, x.Grounded := fun x hx => hg x (hsuf.subset (List.mem_cons_of_mem _ hx))
  have hrecalls : m.before.archive.Recalls epoch policy m.before.ledger :=
    hk.recalls hstart (fun x hx => (hgk x hx).after.1.collisionless)
      fun x hx l hl => ((hgk x hx).grows l hl).subset
  obtain ⟨g, snap, hprecedes, hparent⟩ := hl.precedes hq.mem hb
  refine ⟨g, snap, hq.height ▸ hprecedes, ?_, fun t ht => ?_, fun t ht => ?_⟩
  · rw [hq.signed_eq, hk.signer, hsigner]
    simp only [isCommittedProposal_eq hrecalls hl hq.mem hprecedes hparent hq.block]
  · exact ht.proposer hl.chained (hq.height ▸ hprecedes)
  · exact ht.nominee hl.chained (hq.height ▸ hprecedes) p.view.round

end Replica

end

namespace Pair

open Replica

attribute [local instance] Scheme.plain

def longer : MemoryLedger := .ofHeaders [genesis, block.header, successor.header]

theorem longer_complete : Complete 100 .roundRobin longer where
  chained := by decide +kernel
  genesis := by decide +kernel
  indexed := by decide +kernel
  known g hg := by
    have h : ∀ g ∈ headers longer,
        ((Archive.empty 100 .roundRobin 8).snapshot longer g.number g.hash).1.isOk = true := by
      decide +kernel
    exact exists_snapshotOf (Archive.empty_recalls _ _ 8 _) (h g hg)

def follower : Except HeaderFault (Replica MemoryLedger) :=
  Replica.create second grown (.empty 100 .roundRobin 8) (.empty 8 8) (.idle 10 20) 8

theorem exists_follower : ∃ t, follower = .ok t ∧ Created 100 .roundRobin longer block.header t ∧
    ((t.startRound 0).startRound 0).committee.proposer = some second.address := by
  obtain ⟨t, hc, hchained, hwithin, hhead, hproposer⟩ := exists_ok (x := follower) (P := fun t =>
    Chained t.ledger ∧ (∀ g ∈ headers t.ledger, g ∈ headers longer) ∧
      Ledger.head t.ledger = block.header ∧
      ((t.startRound 0).startRound 0).committee.proposer = some second.address) (by decide +kernel)
  exact ⟨t, hc, ⟨⟨_, _, _, _, _, _, hc⟩, hchained, hwithin, hhead⟩, hproposer⟩

def repeatedEvents : List (Event MemoryLedger) :=
  .start :: hear (Message.ofPreprepare second ⟨⟨2, 0⟩, successor⟩)

/-- It answers with a Commit, for it was the turn of the second validator. -/
theorem old_preprepare_answered_repeated : ∃ start t, advanced = .ok start ∧ follower = .ok t ∧
    (∀ m ∈ start.moments repeatedEvents, m.Grounded) ∧
    ∃ m ∈ start.moments repeatedEvents, Complete 100 .roundRobin m.before.ledger ∧
      ∃ q p, m.HearsBlock q p successor.header ∧ successor.header.number ≠ 0 ∧
        Created 100 .roundRobin m.before.ledger block.header t ∧
        ((t.startRound 0).startRound p.view.round).committee.proposer = some q.sender ∧
        ∃ c, m.signed = [c] ∧ Message.commit first ⟨p.view, p.proposal.hash⟩ = some c := by
  obtain ⟨t, ht, hcreated, hproposer⟩ := exists_follower
  obtain ⟨start, hc, hg, m, hm, hledger, hview, hmember, hheard⟩ := exists_ok (x := advanced)
    (P := fun start =>
      (∀ m ∈ start.moments repeatedEvents, (Chained m.before.ledger ∧ m.before.KnowsHead) ∧
        (Chained m.after.ledger ∧ m.after.KnowsHead)) ∧
      ∃ m ∈ start.moments repeatedEvents, m.before.ledger = longer ∧ m.before.view? = some ⟨3, 0⟩ ∧
        second.address ∈ m.before.committee.members ∧
        m.heard = Message.ofPreprepare second ⟨⟨2, 0⟩, successor⟩) (by decide +kernel)
  have hg := grounded (fun e he => by
    rcases List.mem_cons.mp he with rfl | he
    · simp
    · exact hear_ne_replace he) hg
  have hread : (Message.ofPreprepare second ⟨⟨2, 0⟩, successor⟩).map (fun q =>
      (q.verify, q.kind, q.preprepare)) = some (.ok (), .preprepare, .ok ⟨⟨2, 0⟩, successor⟩) := by
    decide +kernel
  obtain ⟨q, hq, hread⟩ := Option.map_eq_some_iff.mp hread
  obtain ⟨hverify, hkind, hbody⟩ : q.verify = .ok () ∧ q.kind = .preprepare ∧
      q.preprepare = .ok ⟨⟨2, 0⟩, successor⟩ := by simpa using hread
  have hsender : q.sender = second.address := (Message.signed_spec hq).2.2
  have hcomplete : Complete 100 .roundRobin m.before.ledger := hledger ▸ longer_complete
  rw [← hledger] at hcreated
  have hmem : successor.header ∈ headers m.before.ledger := by
    rw [hledger]
    decide +kernel
  have hears : m.HearsBlock q ⟨⟨2, 0⟩, successor⟩ successor.header :=
    ⟨hheard.trans hq, hverify, hkind, hbody, ⟨_, hview, by decide⟩, hmem, by decide +kernel, rfl⟩
  have hnumber : successor.header.number ≠ 0 := by decide +kernel
  obtain ⟨g, snap, hprecedes, hsigned, -, hagree⟩ :=
    old_preprepare_answered hc (moments_run start repeatedEvents) hg hm hcomplete hears hnumber
  have hprevious : ∀ g ∈ headers longer, next? g.number = some 2 → g = block.header := by decide +kernel
  obtain rfl := hprevious g (hledger ▸ hprecedes.mem) hprecedes.next
  have hturn : snap.nominee block.header 0 = some q.sender := by
    rw [hsender, ← hproposer]
    exact (hagree t hcreated).2.symm
  have hcommit : (Message.commit first ⟨⟨2, 0⟩, successor.hash⟩).isSome := by decide +kernel
  obtain ⟨c, hcommit⟩ := Option.isSome_iff_exists.mp hcommit
  refine ⟨start, t, hc, ht, hg, m, hm, hcomplete, q, _, hears, hnumber, hcreated,
    hsender ▸ hproposer, c, ?_, hcommit⟩
  rw [hsigned, if_pos ⟨hsender ▸ hmember, hturn⟩]
  exact congrArg Option.toList hcommit

end Pair

end BlockAgreement
