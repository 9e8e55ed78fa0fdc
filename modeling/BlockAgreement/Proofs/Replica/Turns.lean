import BlockAgreement.Proofs.Replica.Finality
import BlockAgreement.Proofs.Replica.Proposals

/-!
# A replica proposes in its turn

In a view that has begun, the proposer is the one whose turn it is in the committee after the last block,
given the author of that block and the round. A replica proposes in such a view only if it is its turn. A
replica that waits for its view to begin still has the proposer of the view before, so what it is asked
to propose there may come out of turn.
-/

set_option autoImplicit false

namespace BlockAgreement

section

variable {σ : Type} [Scheme] [Ledger σ] [LawfulLedger σ] {epoch : Epoch} {policy : ProposerPolicy}

/-- The block before this height, and the snapshot after it. -/
structure Precedes (epoch : Epoch) (policy : ProposerPolicy) (ledger : σ) (sequence : Height)
    (g : Header) (snap : Snapshot) : Prop where
  mem : g ∈ headers ledger
  next : next? g.number = some sequence
  snapshot : SnapshotOf epoch policy (Ledger.lookup ledger) g.hash snap

theorem Precedes.grow {ledger ledger' : σ} {sequence : Height} {g : Header} {snap : Snapshot}
    (h : Precedes epoch policy ledger sequence g snap) (hl : headers ledger ⊆ headers ledger')
    (hc : Collisionless (headers ledger')) : Precedes epoch policy ledger' sequence g snap :=
  ⟨hl h.mem, h.next, h.snapshot.mono fun _ _ => lookup_mono hl hc⟩

namespace Stance

/-- The committee is that after the block before the current height. In a view that has begun, its
proposer is the one whose turn it is. -/
structure Appoints (epoch : Epoch) (policy : ProposerPolicy) (s : Stance σ) (a : Attempt) (g : Header)
    (snap : Snapshot) : Prop where
  precedes : Precedes epoch policy s.ledger a.view.sequence g snap
  members : s.committee.members = snap.committee.members
  policy : s.committee.policy = snap.committee.policy
  proposer : s.waiting = false →
    s.committee.proposer = (snap.committee.choose (Replica.lastProposer g) a.view.round).proposer

def Appointed (epoch : Epoch) (policy : ProposerPolicy) (s : Stance σ) : Prop :=
  ∀ a ∈ s.attempt, ∃ g snap, s.Appoints epoch policy a g snap

namespace Appointed

variable {s t : Stance σ} {a b : Attempt}

theorem grow (hs : s.Appointed epoch policy) {ledger : σ} (hl : headers s.ledger ⊆ headers ledger)
    (hc : Collisionless (headers ledger)) :
    ({ s with ledger } : Stance σ).Appointed epoch policy := fun a ha => by
  obtain ⟨g, snap, h⟩ := hs a ha
  exact ⟨g, snap, h.precedes.grow hl hc, h.members, h.policy, h.proposer⟩

theorem consult (hs : s.Appointed epoch policy) (archive : Archive) :
    ({ s with archive } : Stance σ).Appointed epoch policy := fun a ha => by
  obtain ⟨g, snap, h⟩ := hs a ha
  exact ⟨g, snap, h.precedes, h.members, h.policy, h.proposer⟩

theorem stay (hs : s.Appointed epoch policy) (ha : s.attempt = some a) (hb : t.attempt = some b)
    (hl : t.ledger = s.ledger) (hc : t.committee = s.committee)
    (hv : b.view.sequence = a.view.sequence)
    (hw : t.waiting = false → s.waiting = false ∧ b.view = a.view) :
    t.Appointed epoch policy := fun c hcb => by
  obtain rfl := Option.some.inj (hb.symm.trans hcb)
  obtain ⟨g, snap, h⟩ := hs a ha
  refine ⟨g, snap, hl ▸ hv ▸ h.precedes, hc ▸ h.members, hc ▸ h.policy, fun hwt => ?_⟩
  obtain ⟨hws, hview⟩ := hw hwt
  rw [hc, hview]
  exact h.proposer hws

end Appointed

variable {origin s t : Stance σ} {heard : Option Message} {es : List Effect}

theorem Move.appointed (h : Move origin heard s es t) (hs : s.Appointed epoch policy)
    (hr : s.archive.Recalls epoch policy s.ledger) (hc : Chained s.ledger) (ht : Chained t.ledger)
    (hk : HeadKnown epoch policy s.ledger) : t.Appointed epoch policy := by
  cases h with
  | consult number hash => exact hs.consult _
  | request b ha hb => exact hs.stay ha rfl rfl rfl rfl fun hw => ⟨hw, rfl⟩
  | propose => exact hs
  | ask ha hlt => exact hs.stay ha rfl rfl rfl rfl fun hw => by cases hw
  | @enterSequence _ sequence hn ha =>
    obtain ⟨snap, hsnap⟩ := hk
    have hcom := refreshed_committee hr hc hsnap
    have hl := refreshed_ledger s (Ledger.head s.ledger)
    rintro a ha
    obtain rfl := Option.some.inj ha
    refine ⟨Ledger.head s.ledger, snap, ⟨hl.symm ▸ hc.head_mem, hn, hl.symm ▸ hsnap⟩, ?_, ?_, fun _ => ?_⟩
    · exact (congrArg Committee.members hcom :)
    · exact (congrArg Committee.policy hcom :)
    · show (Committee.choose _ _ _).proposer = _
      rw [hcom]
  | @enterRound _ a round ha hn h0 hlt hw =>
    rintro b hb
    obtain rfl := Option.some.inj hb
    obtain ⟨g, snap, hg⟩ := hs a ha
    -- the head is the only block before the height
    have hnum : g.number = (Ledger.head s.ledger).number := by
      have h1 := toNat_of_next? hg.precedes.next
      have h2 := toNat_of_next? hn
      exact UInt64.toNat_inj.mp (by omega)
    obtain rfl := hc.linked.eq_of_number hg.precedes.mem hc.head_mem hnum
    exact ⟨Ledger.head s.ledger, snap, hg.precedes, hg.members, hg.policy, fun _ =>
      Committee.choose_congr hg.members hg.policy _ round⟩
  | accept hm hp hl => exact hs.stay hp.attempt rfl rfl rfl rfl fun hw => ⟨hw, rfl⟩
  | support hm hp hl => exact hs.stay hp.attempt rfl rfl rfl rfl fun hw => ⟨hw, rfl⟩
  | answer => exact hs
  | countPrepare hm hd hp => exact hs.stay hd.attempt rfl rfl rfl rfl fun hw => ⟨hw, rfl⟩
  | lock hm hd hp hq hn => exact hs.stay hd.attempt rfl rfl rfl rfl fun hw => ⟨hw, rfl⟩
  | countCommit hm hd hseal hp => exact hs.stay hd.attempt rfl rfl rfl rfl fun hw => ⟨hw, rfl⟩
  | @finalize _ _ _ _ ledger hm hd hseal hp hq hn hl =>
    have hsub : headers origin.ledger ⊆ headers ledger := by
      rw [LawfulLedger.appended hl]
      exact List.subset_cons_self _ _
    have hgrow := hs.grow hsub ht.collisionless
    exact hgrow.stay hd.attempt rfl rfl rfl rfl fun hw => ⟨hw, rfl⟩
  | refuse hm hd hseal hp hq hn hl =>
    exact hs.stay hd.attempt rfl rfl rfl rfl fun hw => ⟨hw, rfl⟩

end Stance

namespace Replica

variable {start r : Replica σ} {h : List (Moment σ)}

theorem Run.appointed (hr : Run start h r) (hs : start.attempt = none)
    (ha : start.archive.Recalls epoch policy start.ledger) (hg : ∀ m ∈ h, m.Grounded) :
    r.stance.Appointed epoch policy := by
  refine (hr.keep (fun a h => ?_) ha hg (fun s ledger hs hl hc => hs.grow hl hc)
    fun hmove hs hr hc ht hk => hmove.appointed hs hr hc ht hk).2
  rw [show start.stance.attempt = none from hs] at h
  cases h

/-- On a growing chain of which every snapshot can be made out, every proposal of a replica is for a view
whose turn is its own, as the snapshot after the block before that height has it, unless the replica is
asked for the block while it waits for its view to begin. -/
theorem proposals_in_turn {signer : Signer} {ledger : σ} {gossip : Gossip} {timer : Timer}
    {snapshots capacity : Nat}
    (hc : create signer ledger (.empty epoch policy snapshots) gossip timer capacity = .ok start)
    (hr : Run start h r) (hg : ∀ m ∈ h, m.Grounded) :
    ∀ m ∈ h, m.premature = false → ∀ p ∈ m.proposals,
      ∃ g snap, Precedes epoch policy m.after.ledger p.view.sequence g snap ∧
        (snap.committee.choose (lastProposer g) p.view.round).isProposer signer.address = true := by
  intro m hm hpre p hp
  obtain ⟨-, -, hsigner, -, -, hn, -⟩ := create_spec hc
  obtain ⟨-, hstart, -⟩ := create_recalls hc
  obtain ⟨k, hk, hsuf⟩ := hr.before hm
  have hafter : Run start (m :: k) m.after := .step m.event hk
  obtain ⟨⟨c, hprop, hread⟩, hactive⟩ := m.mem_proposals hp
  obtain ⟨a, ha, hview⟩ := Option.map_eq_some_iff.mp (hprop.view hread)
  obtain ⟨g, snap, happ⟩ := hafter.appointed hn hstart (fun x hx => hg x (hsuf.subset hx)) a ha
  refine ⟨g, snap, hview ▸ happ.precedes, ?_⟩
  have hproposer := happ.proposer (hactive hpre)
  have hself := hprop.proposer
  rw [isProposer, hafter.signer, hsigner, Committee.isProposer] at hself
  rw [Committee.isProposer, ← hview, ← hproposer]
  exact hself

end Replica

end

namespace Pair

open Replica

attribute [local instance] Scheme.plain

theorem grounded {start : Replica MemoryLedger} {es : List (Event MemoryLedger)}
    (he : ∀ e ∈ es, ∀ l, e ≠ .replace l)
    (hm : ∀ m ∈ start.moments es, (Chained m.before.ledger ∧ m.before.KnowsHead) ∧
      (Chained m.after.ledger ∧ m.after.KnowsHead)) : ∀ m ∈ start.moments es, m.Grounded :=
  fun m h => ⟨(hm m h).1, (hm m h).2, fun l hl => absurd hl (he _ (event_of_mem_moments h) l)⟩

/-- The first of two validators proposes the block in the first view, which is its turn. -/
theorem proposals_in_turn_first : ∃ start, replica first = .ok start ∧
    (∀ m ∈ start.moments firstEvents, m.Grounded) ∧
    ∃ m ∈ start.moments firstEvents, m.premature = false ∧ ∃ p ∈ m.proposals,
      ∃ g snap, Precedes 100 .roundRobin m.after.ledger p.view.sequence g snap ∧
        (snap.committee.choose (lastProposer g) p.view.round).isProposer first.address = true := by
  obtain ⟨start, hc, hg, m, hm, hpre, p, hp, -⟩ := exists_replica (k := first) (P := fun start =>
    (∀ m ∈ start.moments firstEvents, (Chained m.before.ledger ∧ m.before.KnowsHead) ∧
      (Chained m.after.ledger ∧ m.after.KnowsHead)) ∧
    ∃ m ∈ start.moments firstEvents, m.premature = false ∧ ∃ p ∈ m.proposals, p.view = ⟨1, 0⟩)
    (by decide +kernel)
  have hg := grounded (fun e he => ne_replace (.inl he)) hg
  exact ⟨start, hc, hg, m, hm, hpre, p, hp,
    proposals_in_turn hc (moments_run start firstEvents) hg m hm hpre p hp⟩

def earlyEvents : List (Event MemoryLedger) :=
  [.start, .input (.timeout ⟨1, 0⟩), .process, .input (.request block)]

/-- It proposes the block there, although it is the turn of the second validator. -/
theorem proposals_out_of_turn_early : ∃ start, replica first = .ok start ∧
    (∀ m ∈ start.moments earlyEvents, m.Grounded) ∧
    ∃ m ∈ start.moments earlyEvents, ∃ p ∈ m.proposals,
      ∀ g snap, Precedes 100 .roundRobin m.after.ledger p.view.sequence g snap →
        (snap.committee.choose (lastProposer g) p.view.round).isProposer first.address = false := by
  obtain ⟨start, hc, hg, hturn, m, hm, hl, p, hp, hview⟩ := exists_replica (k := first)
    (P := fun start =>
      (∀ m ∈ start.moments earlyEvents, (Chained m.before.ledger ∧ m.before.KnowsHead) ∧
        (Chained m.after.ledger ∧ m.after.KnowsHead)) ∧
      (start.committee.choose (lastProposer genesis) 1).isProposer first.address = false ∧
      ∃ m ∈ start.moments earlyEvents, headers m.after.ledger = [genesis] ∧
        ∃ p ∈ m.proposals, p.view = ⟨1, 1⟩) (by decide +kernel)
  have hg := grounded (by simp [earlyEvents]) hg
  refine ⟨start, hc, hg, m, hm, p, hp, fun g snap hprec => ?_⟩
  obtain rfl : g = genesis := by simpa [hl] using hprec.mem
  obtain ⟨s, -, hs, hcom⟩ := create_recalls hc
  have hsub : headers (MemoryLedger.ofHeaders [genesis]) ⊆ headers m.after.ledger := fun g hg => by
    rw [hl]
    exact hg
  have hs := hs.mono fun _ _ => lookup_mono hsub (hg m hm).after.1.collisionless
  obtain rfl := hs.unique hprec.snapshot
  rw [← hcom, hview]
  exact hturn

end Pair

end BlockAgreement
