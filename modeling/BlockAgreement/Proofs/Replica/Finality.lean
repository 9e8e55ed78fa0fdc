import BlockAgreement.Proofs.Replica.Growth

/-!
# Committed blocks are final

What a replica hands to its ledger passes the check of final headers on this ledger. The committee of the
replica is the one after the parent of the block, because the chain has one block at each height, and the
committed seals are those of the Commits that the replica has counted.
-/

set_option autoImplicit false

namespace BlockAgreement

section

variable {σ : Type} [Scheme] [Ledger σ]

namespace Replica

def KnowsHead (r : Replica σ) : Prop :=
  ∃ s, (r.archive.snapshot r.ledger (Ledger.head r.ledger).number (Ledger.head r.ledger).hash).1 =
    .ok s

instance (r : Replica σ) : Decidable r.KnowsHead :=
  decidable_of_iff ((r.archive.snapshot r.ledger (Ledger.head r.ledger).number
      (Ledger.head r.ledger).hash).1.isOk = true) (by
    unfold KnowsHead
    cases (r.archive.snapshot r.ledger (Ledger.head r.ledger).number
      (Ledger.head r.ledger).hash).1 <;> simp [Except.isOk, Except.toBool])

end Replica

variable [LawfulLedger σ] {epoch : Epoch} {policy : ProposerPolicy}

def HeadKnown (epoch : Epoch) (policy : ProposerPolicy) (ledger : σ) : Prop :=
  ∃ snap, SnapshotOf epoch policy (Ledger.lookup ledger) (Ledger.head ledger).hash snap

namespace Stance

/-- The stance is in order on its ledger: the committee is that after the parent of the current height,
and the accepted proposal is valid. -/
structure Legal (epoch : Epoch) (policy : ProposerPolicy) (s : Stance σ) : Prop where
  seated : ∀ a ∈ s.attempt, ∃ g ∈ headers s.ledger, next? g.number = some a.view.sequence ∧
    ∃ snap, SnapshotOf epoch policy (Ledger.lookup s.ledger) g.hash snap ∧
      snap.committee.members = s.committee.members
  proposal : ∀ a ∈ s.attempt, ∀ b ∈ a.proposal,
    ∃ snap, HeaderRules.Holds epoch policy (Ledger.lookup s.ledger) b.header snap

namespace Legal

variable {s t : Stance σ} {a b : Attempt}

theorem grow (hs : s.Legal epoch policy) {ledger : σ} (hl : headers s.ledger ⊆ headers ledger)
    (hc : Collisionless (headers ledger)) : ({ s with ledger } : Stance σ).Legal epoch policy := by
  have hf : ∀ d h, Ledger.lookup s.ledger d = some h → Ledger.lookup ledger d = some h :=
    fun _ _ => lookup_mono hl hc
  refine ⟨fun a ha => ?_, fun a ha b hb => ?_⟩
  · obtain ⟨g, hg, hn, snap, hsnap, hm⟩ := hs.seated a ha
    exact ⟨g, hl hg, hn, snap, hsnap.mono hf, hm⟩
  · obtain ⟨snap, hh⟩ := hs.proposal a ha b hb
    exact ⟨snap, hh.mono hf⟩

theorem turn (hs : s.Legal epoch policy) (ha : s.attempt = some a) (hb : t.attempt = some b)
    (hl : t.ledger = s.ledger) (hc : t.committee.members = s.committee.members)
    (hv : b.view.sequence = a.view.sequence)
    (hp : ∀ x ∈ b.proposal, a.proposal = some x ∨
      ∃ snap, HeaderRules.Holds epoch policy (Ledger.lookup s.ledger) x.header snap) :
    t.Legal epoch policy := by
  refine ⟨fun c hc' => ?_, fun c hc' x hx => ?_⟩
  · obtain rfl := Option.some.inj (hb.symm.trans hc')
    rw [hl, hc, hv]
    exact hs.seated a ha
  · obtain rfl := Option.some.inj (hb.symm.trans hc')
    rw [hl]
    rcases hp x hx with h | h
    · exact hs.proposal a ha x h
    · exact h

theorem holds (hs : s.Legal epoch policy) (hr : s.archive.Recalls epoch policy s.ledger)
    {p : Preprepare} {m : Message} {archive : Archive} (hp : s.Proposes a p m archive) :
    ∃ snap, HeaderRules.Holds epoch policy (Ledger.lookup s.ledger) p.proposal.header snap := by
  have hval := hp.valid
  unfold HeaderRules.verifyProposal at hval
  split at hval
  · refine HeaderRules.verify_holds hr (congrArg Prod.fst hval) fun h0 => ?_
    obtain ⟨g, -, hn, -⟩ := hs.seated a hp.attempt
    have hnum := toNat_of_next? hn
    rw [← hp.number, show p.proposal.number = 0 from h0] at hnum
    simp at hnum
  · cases (Prod.mk.inj hval).1

end Legal

variable {origin s t : Stance σ} {heard : Option Message} {es : List Effect}

theorem Move.legal (h : Move origin heard s es t) (hs : s.Legal epoch policy)
    (hr : s.archive.Recalls epoch policy s.ledger) (hc : Chained s.ledger) (ht : Chained t.ledger)
    (hk : HeadKnown epoch policy s.ledger) :
    t.Legal epoch policy := by
  cases h with
  | consult number hash => exact ⟨hs.seated, hs.proposal⟩
  | request b ha hb => exact hs.turn ha rfl rfl rfl rfl fun x hx => .inl hx
  | propose => exact hs
  | ask ha hlt =>
    refine hs.turn ha rfl rfl rfl rfl fun x hx => .inl (Attempt.next_proposal hx)
  | @enterSequence _ sequence hn ha =>
    obtain ⟨snap, hsnap⟩ := hk
    have hcom := refreshed_committee hr hc hsnap
    have hl := refreshed_ledger s (Ledger.head s.ledger)
    refine ⟨fun a ha => ?_, fun a ha b hb => ?_⟩
    · obtain rfl := Option.some.inj ha
      refine ⟨Ledger.head s.ledger, ?_, hn, snap, ?_, ?_⟩
      · exact hl.symm ▸ hc.head_mem
      · exact hl.symm ▸ hsnap
      · rw [← hcom]
        rfl
    · obtain rfl := Option.some.inj ha
      cases hb
  | enterRound ha hn h0 hlt hw =>
    exact hs.turn ha rfl rfl rfl rfl fun x hx => .inl (Attempt.next_proposal hx)
  | accept hm hp hl =>
    have hh := hs.holds hr hp
    refine hs.turn hp.attempt rfl rfl rfl rfl fun x hx => .inr ?_
    obtain rfl := Option.some.inj hx
    exact hh
  | support hm hp hl =>
    have hh := hs.holds hr hp
    refine hs.turn hp.attempt rfl rfl rfl rfl fun x hx => .inr ?_
    obtain rfl := Option.some.inj hx
    exact hh
  | answer => exact hs
  | countPrepare hm hd hp =>
    exact hs.turn hd.attempt rfl rfl rfl rfl fun x hx => .inl hx
  | lock hm hd hp hq hn =>
    exact hs.turn hd.attempt rfl rfl rfl rfl fun x hx => .inl hx
  | countCommit hm hd hseal hp =>
    exact hs.turn hd.attempt rfl rfl rfl rfl fun x hx => .inl hx
  | @finalize _ _ _ _ ledger hm hd hseal hp hq hn hl =>
    have hsub : headers origin.ledger ⊆ headers ledger := by
      rw [LawfulLedger.appended hl]
      exact List.subset_cons_self _ _
    have hgrow := hs.grow hsub ht.collisionless
    exact hgrow.turn hd.attempt rfl rfl rfl rfl fun x hx => .inl hx
  | refuse hm hd hseal hp hq hn hl =>
    exact hs.turn hd.attempt rfl rfl rfl rfl fun x hx => .inl hx

end Stance

namespace Replica

open Stance

/-- The ledger is a chain that grows, and the snapshot of its head can be made out. -/
structure Moment.Grounded (m : Moment σ) : Prop where
  before : Chained m.before.ledger ∧ m.before.KnowsHead
  after : Chained m.after.ledger ∧ m.after.KnowsHead
  grows : ∀ l, m.event = .replace l → headers m.before.ledger <:+ headers l

variable {start r : Replica σ} {h : List (Moment σ)}

theorem headKnown (hr : r.archive.Recalls epoch policy r.ledger) (hk : r.KnowsHead) :
    HeadKnown epoch policy r.ledger := by
  obtain ⟨snap, hs⟩ := hk
  exact ⟨snap, (hr.snapshot _ _).2 snap hs⟩

/-- On a chain that grows and whose head is known, what moves keep holds throughout a run. -/
theorem Run.keep {P : Stance σ → Prop} (hr : Run start h r) (hs : P start.stance)
    (ha : start.archive.Recalls epoch policy start.ledger) (hg : ∀ m ∈ h, m.Grounded)
    (hgrow : ∀ (s : Stance σ) (ledger : σ), P s → headers s.ledger ⊆ headers ledger →
      Collisionless (headers ledger) → P { s with ledger })
    (hmove : ∀ {origin s t : Stance σ} {heard : Option Message} {es : List Effect},
      Move origin heard s es t → P s → s.archive.Recalls epoch policy s.ledger → Chained s.ledger →
      Chained t.ledger → HeadKnown epoch policy s.ledger → P t) :
    r.archive.Recalls epoch policy r.ledger ∧ P r.stance := by
  have hrec {r : Replica σ} {h : List (Moment σ)} (hr : Run start h r)
      (hg : ∀ m ∈ h, m.Grounded) : r.archive.Recalls epoch policy r.ledger :=
    hr.recalls ha (fun m hm => (hg m hm).after.1.collisionless)
      fun m hm l hl => ((hg m hm).grows l hl).subset
  refine ⟨hrec hr hg, ?_⟩
  induction hr with
  | nil => exact hs
  | @step h r e hr ih =>
    have hgh : ∀ m ∈ h, m.Grounded := fun m hm => hg m (List.mem_cons_of_mem _ hm)
    have ih := ih hgh
    obtain ⟨⟨hcb, hkb⟩, ⟨hca, hka⟩, hgrows⟩ := hg _ List.mem_cons_self
    by_cases he : ∃ l, e = .replace l
    · obtain ⟨l, rfl⟩ := he
      exact hgrow _ l ih (hgrows l rfl).subset hca.collisionless
    · obtain ⟨-, hm, -⟩ := Moment.moves (m := ⟨r, e⟩) (by simpa using he)
      have hbefore := headKnown (hrec hr hgh) hkb
      have hafter := headKnown (hrec (Run.step e hr) hg) hka
      -- every ledger in the course of the moment is the one before it or the one after it
      have hany {u : Stance σ} {es fs : List Effect}
          (hu : Moves r.stance (Moment.heard ⟨r, e⟩) r.stance es u)
          (ht : Moves r.stance (Moment.heard ⟨r, e⟩) u fs (r.react e).stance) :
          Chained u.ledger ∧ HeadKnown epoch policy u.ledger := by
        rcases hu.ledger_or ht rfl with hl | hl
        · exact hl ▸ ⟨hcb, hbefore⟩
        · exact hl ▸ ⟨hca, hafter⟩
      have hkeep := hm.preserve (E := fun _ => True)
        (P := fun s log => s.archive.Recalls epoch policy s.ledger ∧ P s ∧
          Moves r.stance (Moment.heard ⟨r, e⟩) r.stance log s) [] ?_ (by simp)
        ⟨hrec hr hgh, ih, .refl _⟩
      · exact hkeep.2.1
      · rintro u v fs log hmoved - ⟨gs, hgs⟩ ⟨hrecu, hu, hlog⟩
        obtain ⟨hcu, hku⟩ := hany hlog (hmoved.single.trans hgs)
        obtain ⟨hcv, -⟩ := hany (hlog.trans hmoved.single) hgs
        exact ⟨hmoved.recalls hrecu hcv.collisionless, hmove hmoved hu hrecu hcu hcv hku,
          hlog.trans hmoved.single⟩

theorem Run.legal (hr : Run start h r) (hs : start.attempt = none)
    (ha : start.archive.Recalls epoch policy start.ledger) (hg : ∀ m ∈ h, m.Grounded) :
    r.archive.Recalls epoch policy r.ledger ∧ r.stance.Legal epoch policy := by
  refine hr.keep ⟨fun a h => ?_, fun a h => ?_⟩ ha hg
    (fun s ledger hs hl hc => hs.grow hl hc)
    fun hmove hs hr hc ht hk => hmove.legal hs hr hc ht hk
  all_goals
    rw [show start.stance.attempt = none from hs] at h
    cases h

end Replica

namespace Stance

variable {s : Stance σ} {a : Attempt} {b : Block} {m : Message} {commits : Poll}
  {H : Message → Prop}

theorem Decides.committee (hd : s.Decides a b m commits) (hs : s.Legal epoch policy)
    (hf : s.Coherent H) (hc : Chained s.ledger) :
    ∃ snap, HeaderRules.Holds epoch policy (Ledger.lookup s.ledger) b.header snap ∧
      snap.committee.members = s.committee.members := by
  obtain ⟨snap, hh⟩ := hs.proposal a hd.attempt b hd.proposal
  obtain ⟨g, hg, hn, snap', hsnap, hm⟩ := hs.seated a hd.attempt
  obtain ⟨p, hp, hpn, -⟩ := hh.parent
  obtain ⟨k, hk, hkd, rfl⟩ := (lookup_eq_some hc.collisionless).mp hp
  have hnum : b.number = a.view.sequence := (hf a hd.attempt).number b hd.proposal
  have hkg : k.number = g.number := by
    apply UInt64.toNat_inj.mp
    have h1 := toNat_of_next? (show next? k.number = some b.number from hpn)
    have h2 := toNat_of_next? hn
    rw [hnum] at h1
    omega
  obtain rfl := hc.linked.eq_of_number hk hg hkg
  have hsame : snap = snap' := hh.snapshot.unique (hkd ▸ hsnap)
  exact ⟨snap, hh, hsame ▸ hm⟩

omit [Ledger σ] [LawfulLedger σ] in
theorem verifyCommittedSeal_ok {c : Message} {d : Digest}
    (h : c.verifyCommittedSeal d = .ok ()) :
    ∃ sig, c.committedSeal = some sig ∧ recover (commitDigest d) sig = some c.sender := by
  unfold Message.verifyCommittedSeal at h
  split at h
  · cases h
  · rename_i sig hsig
    split at h
    · cases h
    · rename_i a ha
      split at h
      · rename_i he
        exact ⟨sig, hsig, he ▸ ha⟩
      · cases h

omit [Ledger σ] [LawfulLedger σ] in
theorem seals_of_commits {messages : List Message} {d : Digest}
    (h : ∀ c ∈ messages, c.verifyCommittedSeal d = .ok ()) :
    (messages.filterMap (·.committedSeal)).map some = messages.map (·.committedSeal) ∧
      (messages.filterMap (·.committedSeal)).mapM (recover (commitDigest d)) =
        some (messages.map (·.sender)) := by
  induction messages with
  | nil => exact ⟨rfl, rfl⟩
  | cons c cs ih =>
    obtain ⟨sig, hsig, hrec⟩ := verifyCommittedSeal_ok (h c List.mem_cons_self)
    obtain ⟨hseals, hcs⟩ := ih fun c hc => h c (List.mem_cons_of_mem _ hc)
    constructor
    · simp [hsig, hseals]
    · simp [hsig, hrec, hcs]

end Stance

namespace Replica

open Stance

variable {start r : Replica σ} {h : List (Moment σ)}

omit [Ledger σ] [LawfulLedger σ] in
theorem checkCommitters_ok {s : Snapshot} {g : Header} {cs : List Address}
    (hcs : g.committers = some cs) (hn : cs.Nodup) (hin : ∀ x ∈ cs, x ∈ s.committee.members)
    (hq : s.committee.quorum ≤ cs.length) : HeaderRules.checkCommitters s g = .ok () := by
  have hall : cs.all s.committee.contains = true :=
    List.all_eq_true.mpr fun x hx => Committee.contains_iff.mpr (hin x hx)
  rw [HeaderRules.checkCommitters, hcs]
  dsimp only
  rw [if_pos ⟨hall, hn⟩, if_pos hq]

/-- On a growing chain of which every snapshot can be made out, every block that a replica hands to its
ledger passes there the check of final headers. It is for the current height, its committed seals are
those of the Commits counted in the current view, and their signers are a quorum of distinct members of
the committee after its parent. -/
theorem committed_final {signer : Signer} {ledger : σ} {gossip : Gossip} {timer : Timer}
    {snapshots capacity : Nat}
    (hc : create signer ledger (.empty epoch policy snapshots) gossip timer capacity = .ok start)
    (hr : Run start h r) (hg : ∀ m ∈ h, m.Grounded) :
    ∀ m ∈ h, ∀ b, .commit b ∈ m.shown →
      (HeaderRules.verify m.before.ledger m.before.archive b.header true).1 = .ok () ∧
      ∃ a c commits s cs, m.before.attempt = some a ∧ m.heard = some c ∧
        a.commits.add c = .ok commits ∧ b.number = a.view.sequence ∧
        (∀ x ∈ commits.messages, x.CommitsTo ⟨a.view, b.hash⟩) ∧
        b.header.extra.committedSeals.map some = commits.messages.map (·.committedSeal) ∧
        (m.before.archive.parentSnapshot m.before.ledger b.number b.header.parentHash).1 = .ok s ∧
        b.header.committers = some cs ∧ cs.Nodup ∧ (∀ x ∈ cs, x ∈ s.committee.members) ∧
        s.committee.quorum ≤ cs.length := by
  intro m hm b hb
  obtain ⟨-, -, -, -, -, hn, -⟩ := create_spec hc
  obtain ⟨-, hstart, -⟩ := create_recalls hc
  obtain ⟨k, hk, hsuf⟩ := hr.before hm
  have hgk : ∀ m ∈ k, m.Grounded := fun x hx =>
    hg x (hsuf.subset (List.mem_cons_of_mem _ hx))
  obtain ⟨hrec, hlegal⟩ := hk.legal hn hstart hgk
  have hcoh := hk.coherent hn
  obtain ⟨a, c, d, commits, hheard, hd, rfl⟩ := Moment.decides hb
  have hchain : Chained m.before.ledger := (hg m hm).before.1
  obtain ⟨s, hh, hmem⟩ := hd.committee hlegal hcoh hchain
  obtain ⟨-, hto⟩ := hd.commits hcoh
  obtain ⟨hdistinct, hin, hq⟩ := hd.senders hcoh hmem
  obtain ⟨hseals, hcommitters⟩ := seals_of_commits fun x hx => (hto x hx).1.sealed
  have hh := hh.withSeals (commits.messages.filterMap (·.committedSeal))
  have hcs : (c.withSealsOf commits).header.committers = some commits.senders := hcommitters
  have hcheck := checkCommitters_ok hcs hdistinct hin hq
  refine ⟨HeaderRules.verify_of_holds hrec hh fun _ => hcheck, a, d, commits, s, commits.senders,
    hd.attempt, hheard, hd.counted, (hcoh a hd.attempt).number c hd.proposal,
    fun x hx => (hto x hx).1, hseals, HeaderRules.parentSnapshot_eq hrec hh, hcs,
    hdistinct, hin, hq⟩

end Replica

end

namespace Pair

open Replica

attribute [local instance] Scheme.plain

/-- The first of two validators commits the block, and the check of final headers accepts it. -/
theorem committed_final_first : ∃ start, replica first = .ok start ∧
    (∀ m ∈ start.moments firstEvents, m.Grounded) ∧
    ∃ m ∈ start.moments firstEvents, ∃ b, .commit b ∈ m.shown ∧
      (HeaderRules.verify m.before.ledger m.before.archive b.header true).1 = .ok () := by
  have hv : (replica first).toOption.any (fun start =>
      (∀ m ∈ start.moments firstEvents, (Chained m.before.ledger ∧ m.before.KnowsHead) ∧
        (Chained m.after.ledger ∧ m.after.KnowsHead)) ∧
      ∃ m ∈ start.moments firstEvents, Hands m 1) := by decide +kernel
  cases hc : replica first with
  | error e =>
    rw [hc] at hv
    cases hv
  | ok start =>
    rw [hc] at hv
    obtain ⟨hg, m, hm, hands⟩ := of_decide_eq_true hv
    obtain ⟨b, hb, -⟩ := Hands.exists_commit hands
    have hg : ∀ m ∈ start.moments firstEvents, m.Grounded := fun m hm =>
      ⟨(hg m hm).1, (hg m hm).2, fun l hl =>
        absurd hl (ne_replace (.inl (event_of_mem_moments hm)) l)⟩
    exact ⟨start, rfl, hg, m, hm, b, hb, (committed_final hc (moments_run start _) hg m hm b hb).1⟩

end Pair

end BlockAgreement
