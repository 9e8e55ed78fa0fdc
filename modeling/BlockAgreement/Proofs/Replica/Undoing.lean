import BlockAgreement.Proofs.Replica.Certificates
import BlockAgreement.Proofs.Replica.Heights

/-!
# What becomes of a block that the ledger refuses

A replica that has a quorum of Commits hands the block to its ledger. If the ledger refuses it, the
replica gives up the block and its lock, and asks for the next round of the same height with nothing
counted. Only the block that it would propose itself is kept.
-/

set_option autoImplicit false

namespace BlockAgreement

namespace Stance

variable {σ : Type} [Scheme] [Ledger σ] {origin s t : Stance σ} {heard : Option Message}
  {es : List Effect} {a : Attempt} {b : Block} {m : Message} {commits : Poll}

omit [Ledger σ] in
/-- With this Commit there is a quorum for the block, and without it there is none. -/
structure Completes (s : Stance σ) (a : Attempt) (b : Block) (m : Message) (commits : Poll) : Prop
    extends s.Counts a b .commit m where
  sealed : m.verifyCommittedSeal b.hash = .ok ()
  counted : a.commits.add m = .ok commits
  short : a.commits.size < s.committee.quorum
  quorum : s.committee.quorum ≤ commits.size

def Closes (s : Stance σ) : Prop :=
  s.phase = .committed → s.waiting = false → ∀ a ∈ s.attempt, s.committee.quorum ≤ a.commits.size

omit [Ledger σ] in
theorem Completes.decides (h : s.Completes a b m commits) (hs : s.Closes) : s.Decides a b m commits where
  toCounts := h.toCounts
  sealed := h.sealed
  counted := h.counted
  quorum := h.quorum
  undecided := by
    have hopen : s.phase ≠ .committed := fun hp =>
      Nat.not_le_of_lt h.short (hs hp h.active a h.attempt)
    cases hp : s.phase with
    | committed => exact absurd hp hopen
    | _ => decide

theorem Move.closes (h : Move origin heard s es t) (hs : s.Closes) : t.Closes := by
  cases h with
  | consult => exact hs
  | request b ha hb =>
    rintro hp hw _ ⟨⟩
    have hquorum := hs hp hw _ ha
    exact hquorum
  | propose => exact hs
  | ask ha hr => exact fun _ hw => absurd hw (by simp [asking])
  | enterSequence hn ha => exact fun hp => absurd hp (by simp [entering])
  | enterRound ha hn h0 hr hw => exact fun hp => absurd hp (by simp [entering])
  | accept hm hp hl => exact fun hp => absurd hp (by simp)
  | support hm hp hl => exact fun hp => absurd hp (by simp)
  | answer => exact hs
  | countPrepare hm hc hadd =>
    rintro hp hw _ ⟨⟩
    have hquorum := hs hp hw _ hc.attempt
    exact hquorum
  | lock hm hc hadd hq hn => exact fun hp => absurd hp (by simp)
  | countCommit hm hc hseal hadd =>
    rintro hp hw _ ⟨⟩
    exact (hs hp hw _ hc.attempt).trans (Poll.size_add hadd).1
  | finalize hm hc hseal hadd hq =>
    rintro hp hw _ ⟨⟩
    exact hq
  | refuse hm hc hseal hadd hq =>
    rintro hp hw _ ⟨⟩
    exact hq

end Stance

namespace Replica

open Stance

variable {σ : Type} [Scheme] [Ledger σ] {start r s : Replica σ} {h : List (Moment σ)} {a : Attempt}
  {b : Block} {m : Message} {commits : Poll} {fault : LedgerFault} {round : Round}

theorem Run.closes (hr : Run start h r) (hs : start.attempt = none) : r.stance.Closes := by
  refine hr.follow (P := fun _ s => s.Closes) (fun _ _ a ha => ?_) (fun hs => hs)
    (fun _ hs => hs) fun _ hm hs => hm.closes hs
  rw [show start.stance.attempt = none from hs] at ha
  cases ha

theorem handleCommit_of_decides (hd : r.stance.Decides a b m commits) :
    r.handleCommit m = { r with attempt := some { a with commits, lock := some b.hash } }.commit := by
  have ha : r.attempt = some a := hd.attempt
  have hsubject : r.checkSubject m = .ok ⟨a.view, b.hash⟩ :=
    checkSubject_eq ha hd.proposal hd.active hd.proposed (by simp [hd.kind]) hd.subject
  simp only [handleCommit, hsubject, ha, hd.sealed, hd.counted]
  rw [if_pos ⟨hd.quorum, hd.undecided⟩, locked_eq (a := { a with commits }) hd.proposal]

theorem receive_refuses {d : Delivery} (hd : r.stance.Decides a b d.message commits)
    (hl : Ledger.append r.ledger (b.withSealsOf commits) = .error fault)
    (hn : next? a.view.round = some round) :
    ∃ said, (r.receive d).stance = ({ r.stance with phase := .committed } : Stance σ).asking
        { a with commits, lock := none } round ∧
      (r.receive d).effects =
        .notify (.dropMessage d.message.sender .commit (toString (Rejection.ledger fault))) ::
          (said ++ .commit (b.withSealsOf commits) :: r.effects) ∧
      Effect.broadcasts said = (Message.roundChange r.signer ⟨a.view.sequence, round⟩).toList ∧
      Effect.notices said = ((Message.roundChange r.signer ⟨a.view.sequence, round⟩).map
        fun _ => Notice.roundChange ⟨a.view.sequence, round⟩).toList := by
  have hcommit : r.handleCommit d.message =
      (.error (.ledger fault), (r.released { a with commits } b).sendNextRoundChange) := by
    rw [handleCommit_of_decides hd, commit_eq (a := { a with commits }) hd.proposal, hl]
  have hprocess : r.process d.message =
      (.error (.ledger fault), (r.released { a with commits } b).sendNextRoundChange) := by
    rw [process_eq hd.verified (Committee.contains_iff.mp hd.member), hd.kind]
    exact hcommit
  have hreceive := (receive_error hprocess).resolve_right (by simp)
  have hs := released_stance r { a with commits } b
  have he : (r.released { a with commits } b).effects = _ := decided_effects r { a with commits } b
  obtain ⟨said, hasks⟩ := sendNextRoundChange_asks (congrArg Stance.attempt hs) hn
  have hsigner : (r.released { a with commits } b).signer = r.signer := congrArg Stance.signer hs
  refine ⟨said, ?_, ?_, hsigner ▸ hasks.broadcasts, hsigner ▸ hasks.notices⟩
  · rw [hreceive]
    refine hasks.stance.trans ?_
    rw [hs]
    rfl
  · rw [hreceive, ← hd.kind, ← he, ← hasks.effects]
    rfl

/-- In every run, if the Commit that completes the quorum for a block is heard and the ledger refuses
the block, the replica is left waiting in the next round of the same height, without lock and proposal
and with no vote counted. It keeps its committee, its ledger and the block that it would propose. It has
broadcast its request for that round, unless signing has failed, and has reported no more than this and
that the Commit was dropped. -/
theorem refused_block_undone {signer : Signer} {ledger : σ} {archive : Archive} {gossip : Gossip}
    {timer : Timer} {capacity : Nat}
    (hc : create signer ledger archive gossip timer capacity = .ok start) (hr : Run start h r) :
    ∀ m ∈ h, ∀ c a b commits fault round, m.heard = some c →
      m.before.stance.Completes a b c commits →
      Ledger.append m.before.ledger (b.withSealsOf commits) = .error fault →
      next? a.view.round = some round →
      m.after.attempt = some { Attempt.start ⟨a.view.sequence, round⟩ m.before.committee with
        request := a.request } ∧
      m.after.waiting = true ∧ m.after.committee = m.before.committee ∧
      m.after.ledger = m.before.ledger ∧ .commit (b.withSealsOf commits) ∈ m.shown ∧
      m.signed = (Message.roundChange m.before.signer ⟨a.view.sequence, round⟩).toList ∧
      Effect.notices m.shown = .dropMessage c.sender .commit (toString (Rejection.ledger fault)) ::
        ((Message.roundChange m.before.signer ⟨a.view.sequence, round⟩).map
          fun _ => Notice.roundChange ⟨a.view.sequence, round⟩).toList ∧
      ∀ hash number seals, Notice.finalCommitted hash number seals ∉ Effect.notices m.shown := by
  intro m hm c a b commits fault round hheard hcompletes hl hn
  obtain ⟨-, -, -, -, -, hnone, -⟩ := create_spec hc
  obtain ⟨k, hbefore, -⟩ := hr.before hm
  -- without the quorum the view has not come to its last phase, so the Commit decides
  have hdecides := hcompletes.decides (hbefore.closes hnone)
  obtain ⟨d, ready, rfl, hafter⟩ := Moment.receives hheard
  obtain ⟨said, hs, he, hsaid, hnotices⟩ :=
    receive_refuses (r := { m.before with ready }) hdecides hl hn
  rw [← hafter] at hs he
  have hshown : m.shown =
      .notify (.dropMessage d.message.sender .commit (toString (Rejection.ledger fault))) ::
        (said ++ [.commit (b.withSealsOf commits)]) :=
    Moment.shown_of_leads (by rw [he]; simp)
  have hall : Effect.notices m.shown =
      .dropMessage d.message.sender .commit (toString (Rejection.ledger fault)) ::
        Effect.notices said := by
    rw [hshown]
    simp [Effect.notices]
  refine ⟨(congrArg Stance.attempt hs).trans ?_, congrArg Stance.waiting hs,
    congrArg Stance.committee hs, congrArg Stance.ledger hs, ?_, ?_, hall.trans (by rw [hnotices]), ?_⟩
  · rfl
  · simp [hshown]
  · calc m.signed = Effect.broadcasts m.shown := rfl
      _ = Effect.broadcasts said := by
        rw [hshown, ← List.singleton_append, Effect.broadcasts_append, Effect.broadcasts_append]
        exact List.append_nil _
      _ = _ := hsaid
  · intro hash number seals hmem
    rw [hall, hnotices] at hmem
    simp at hmem

end Replica

namespace Pair

open Replica

attribute [local instance] Scheme.plain

def rejecting : MemoryLedger := { MemoryLedger.ofHeaders [genesis] with rejecting := some "disk full" }

def refusedEvents : List (Event MemoryLedger) :=
  [.start] ++ hear (Message.ofPreprepare first ⟨⟨1, 0⟩, block⟩) ++ [.process] ++
    hear (Message.prepare first subject) ++ [.process, .replace rejecting] ++
    hear (Message.commit first subject)

/-- It asks for round 1 then, and the first one's Commit is reported as dropped. -/
theorem refused_block_undone_full : ∃ start, replica second = .ok start ∧
    ∃ m ∈ start.moments refusedEvents, ∃ c a commits, Message.commit first subject = some c ∧
      m.heard = some c ∧ a.view = ⟨1, 0⟩ ∧ m.before.stance.Completes a block c commits ∧
      Ledger.append m.before.ledger (block.withSealsOf commits) = .error (.rejected "disk full") ∧
      m.after.attempt = some { Attempt.start ⟨1, 1⟩ m.before.committee with request := a.request } ∧
      m.after.waiting = true ∧ m.after.ledger = rejecting ∧
      m.signed = (Message.roundChange second ⟨1, 1⟩).toList ∧
      Effect.notices m.shown =
        [.dropMessage first.address .commit (toString (Rejection.ledger (.rejected "disk full"))),
          .roundChange ⟨1, 1⟩] := by
  obtain ⟨start, hstart, hsome, hmoment, hchecked⟩ := exists_replica (k := second)
    (P := fun start => (Message.commit first subject).isSome ∧
      (start.moments refusedEvents).head?.isSome ∧
      ∀ c ∈ Message.commit first subject, ∀ m ∈ (start.moments refusedEvents).head?,
        (m.heard = some c ∧ c.verify = .ok () ∧ c.kind = .commit ∧ c.sender = first.address ∧
          c.subject = .ok ⟨⟨1, 0⟩, block.hash⟩ ∧ c.verifyCommittedSeal block.hash = .ok ()) ∧
        (m.before.committee.contains c.sender ∧ m.before.waiting = false ∧
          m.before.phase ≠ .newRound ∧ m.before.ledger = rejecting) ∧
        Message.roundChange m.before.signer ⟨1, 1⟩ = Message.roundChange second ⟨1, 1⟩ ∧
        (Message.roundChange second ⟨1, 1⟩).isSome ∧ m.before.attempt.isSome ∧
        ∀ a ∈ m.before.attempt, a.view = ⟨1, 0⟩ ∧ a.proposal = some block ∧
          a.commits.size < m.before.committee.quorum ∧
          (a.commits.add c).toOption.any fun commits : Poll =>
            m.before.committee.quorum ≤ commits.size) (by decide +kernel)
  obtain ⟨c, hc⟩ := Option.isSome_iff_exists.mp hsome
  obtain ⟨m, hm⟩ := Option.isSome_iff_exists.mp hmoment
  obtain ⟨⟨hheard, hverify, hkind, hsender, hsubject, hseal⟩,
    ⟨hmember, hwaiting, hphase, hledger⟩, hsigner, hsigned, hattempt, hattempts⟩ := hchecked c hc m hm
  obtain ⟨a, ha⟩ := Option.isSome_iff_exists.mp hattempt
  obtain ⟨hview, hproposal, hshort, hadds⟩ := hattempts a ha
  obtain ⟨commits, hadd, hquorum⟩ := exists_ok (P := fun commits : Poll =>
    m.before.committee.quorum ≤ commits.size) hadds
  have hcompletes : m.before.stance.Completes a block c commits :=
    { verified := hverify, member := hmember, attempt := ha, kind := hkind, proposal := hproposal
      subject := hview ▸ hsubject, active := hwaiting, proposed := hphase, sealed := hseal
      counted := hadd, short := hshort, quorum := hquorum }
  have hrefuses : Ledger.append m.before.ledger (block.withSealsOf commits) =
      .error (.rejected "disk full") := by
    rw [hledger]
    rfl
  have hmem := List.mem_of_mem_head? hm
  obtain ⟨hafter, hwaits, -, hstays, -, hsaid, hnotices, -⟩ :=
    refused_block_undone hstart (moments_run start refusedEvents) m hmem c a block commits _ 1 hheard
      hcompletes hrefuses (by rw [hview]; decide)
  obtain ⟨q, hq⟩ := Option.isSome_iff_exists.mp hsigned
  rw [hview] at hafter hsaid hnotices
  rw [hsigner] at hsaid hnotices
  rw [hq, hsender] at hnotices
  exact ⟨start, hstart, m, hmem, c, a, commits, hc, hheard, hview, hcompletes, hrefuses, hafter, hwaits,
    hstays.trans hledger, hsaid, hnotices⟩

end Pair

end BlockAgreement
