import BlockAgreement.Proofs.Replica.Growth

/-!
# The committee in office

A replica that adds to its ledger only what it decides builds a chain: every block that it decides on
extends the head. Its committee is the one that the chain puts in office, that of the snapshot after the
head, or, where there is none, the one before. So replicas with the same chain have the same committee
at a height.
-/

set_option autoImplicit false

namespace BlockAgreement

variable [Scheme]

inductive InForce (epoch : Epoch) (policy : ProposerPolicy) : List Header → List Address → Prop where
  | known {g : Header} {hs : List Header} {snap : Snapshot}
      (hk : SnapshotOf epoch policy (findIn (g :: hs)) g.hash snap) :
      InForce epoch policy (g :: hs) snap.committee.members
  | kept {g : Header} {hs : List Header} {members : List Address}
      (hk : ¬ ∃ snap, SnapshotOf epoch policy (findIn (g :: hs)) g.hash snap)
      (hm : InForce epoch policy hs members) : InForce epoch policy (g :: hs) members

variable {epoch : Epoch} {policy : ProposerPolicy}

theorem InForce.unique {hs : List Header} {ms ns : List Address} (hm : InForce epoch policy hs ms)
    (hn : InForce epoch policy hs ns) : ms = ns := by
  induction hm generalizing ns with
  | known hk =>
    cases hn with
    | known hk' => rw [hk.unique hk']
    | kept hk' => exact absurd ⟨_, hk⟩ hk'
  | kept hk _ ih =>
    cases hn with
    | known hk' => exact absurd ⟨_, hk'⟩ hk
    | kept _ hm' => exact ih hm'

variable {σ : Type} [Ledger σ] [LawfulLedger σ]

/-- The head is at the height before the current one and is the parent of the accepted proposal, or it
is at the current height, which is decided then. The committee is in office at the current height. -/
inductive Stance.Seated (epoch : Epoch) (policy : ProposerPolicy) (s : Stance σ) : Prop where
  | idle (ha : s.attempt = none) (hm : InForce epoch policy (bare s.ledger) s.committee.members)
  | before {a : Attempt} (ha : s.attempt = some a)
      (hn : next? (Ledger.head s.ledger).number = some a.view.sequence)
      (hp : ∀ b ∈ a.proposal, b.header.parentHash = (Ledger.head s.ledger).hash)
      (hm : InForce epoch policy (bare s.ledger) s.committee.members)
  | after {a : Attempt} {g : Header} {hs : List Header} (ha : s.attempt = some a)
      (hn : (Ledger.head s.ledger).number = a.view.sequence) (hd : ¬ s.phase < .committed)
      (hl : bare s.ledger = g :: hs)
      (hm : InForce epoch policy hs s.committee.members)

namespace Stance

variable {origin s t : Stance σ} {heard : Option Message} {es : List Effect}

/-- Nothing changes but within the height. What is newly proposed extends the head, and a decision is
left alone. -/
theorem Seated.turn {a b : Attempt} (hs : s.Seated epoch policy) (ha : s.attempt = some a)
    (hb : t.attempt = some b) (hl : t.ledger = s.ledger)
    (hc : t.committee.members = s.committee.members) (hv : b.view.sequence = a.view.sequence)
    (hp : ∀ x ∈ b.proposal, a.proposal = some x ∨
      x.header.parentHash = (Ledger.head s.ledger).hash)
    (hd : (Ledger.head s.ledger).number = a.view.sequence → ¬ s.phase < .committed →
      ¬ t.phase < .committed) : t.Seated epoch policy := by
  cases hs with
  | idle hnone =>
    rw [ha] at hnone
    cases hnone
  | before ha' hn hparent hm =>
    obtain rfl := Option.some.inj (ha.symm.trans ha')
    refine .before hb (by rw [hl, hv, hn]) (fun x hx => ?_) (by rw [hl, hc]; exact hm)
    rw [hl]
    exact (hp x hx).elim (hparent x) id
  | after ha' hn hdone hh hm =>
    obtain rfl := Option.some.inj (ha.symm.trans ha')
    exact .after hb (by rw [hl, hv, hn]) (hd hn hdone) (hl ▸ hh) (by rw [hc]; exact hm)

theorem Seated.decides {a : Attempt} {b : Block} {m : Message} {commits : Poll} {H : Message → Prop}
    (hs : s.Seated epoch policy) (hf : s.Coherent H) (hd : s.Decides a b m commits) :
    b.header.Extends (Ledger.head s.ledger) ∧
      InForce epoch policy (bare s.ledger) s.committee.members := by
  cases hs with
  | idle hnone =>
    rw [hd.attempt] at hnone
    cases hnone
  | before ha hn hp hm =>
    obtain rfl := Option.some.inj (hd.attempt.symm.trans ha)
    have hnum : b.number = a.view.sequence := (hf a ha).number b hd.proposal
    exact ⟨⟨hp b hd.proposal, hn.trans (congrArg some hnum.symm)⟩, hm⟩
  | after ha hn hdone => exact absurd hd.undecided hdone

theorem Seated.refreshed (hs : s.Seated epoch policy)
    (hr : s.archive.Recalls epoch policy s.ledger) (hc : Chained s.ledger) :
    InForce epoch policy (bare s.ledger)
      (s.refreshed (Ledger.head s.ledger)).committee.members := by
  obtain ⟨hs', hbare⟩ := hc.bare_cons
  have hfind := lookup_eq_findIn hc.collisionless
  rw [hbare] at hfind
  by_cases hk : ∃ snap,
      SnapshotOf epoch policy (Ledger.lookup s.ledger) (Ledger.head s.ledger).hash snap
  · obtain ⟨snap, hk⟩ := hk
    rw [refreshed_committee hr hc hk, hbare]
    rw [hfind] at hk
    exact .known hk
  · have hkeep : (s.refreshed (Ledger.head s.ledger)).committee = s.committee := by
      have hsnap := (hr.snapshot (Ledger.head s.ledger).number (Ledger.head s.ledger).hash).2
      unfold Stance.refreshed
      split
      · rfl
      · rename_i snap archive he
        rw [he] at hsnap
        exact absurd ⟨snap, hsnap snap rfl⟩ hk
    rw [hkeep]
    cases hs with
    | idle hnone hm => exact hm
    | before ha' hn hp hm => exact hm
    | after ha' hn hd hl hm =>
      obtain ⟨rfl, rfl⟩ := List.cons.inj (hbare.symm.trans hl)
      rw [hbare]
      rw [hfind] at hk
      exact .kept hk hm

theorem Move.seated {H : Message → Prop} (h : Move origin heard s es t)
    (hs : s.Seated epoch policy) (hf : s.Coherent H)
    (hr : s.archive.Recalls epoch policy s.ledger) (hc : Chained s.ledger) :
    t.Seated epoch policy := by
  have hquiet : t.phase = s.phase → t.attempt = s.attempt → t.ledger = s.ledger →
      t.committee = s.committee → t.Seated epoch policy := by
    intro h0 h1 h2 h3
    cases hs with
    | idle ha hm => exact .idle (h1.trans ha) (by rw [h2, h3]; exact hm)
    | before ha hn hp hm =>
      exact .before (h1.trans ha) (by rw [h2, hn]) (by rwa [h2]) (by rw [h2, h3]; exact hm)
    | after ha hn hd hl hm =>
      exact .after (h1.trans ha) (by rw [h2, hn]) (by rwa [h0]) (h2 ▸ hl) (by rw [h3]; exact hm)
  cases h with
  | consult => exact hquiet rfl rfl rfl rfl
  | propose => exact hquiet rfl rfl rfl rfl
  | answer => exact hquiet rfl rfl rfl rfl
  | request b ha hb => exact hs.turn ha rfl rfl rfl rfl (fun x hx => .inl hx) fun _ => id
  | ask ha hlt =>
    exact hs.turn ha rfl rfl rfl rfl (fun x hx => .inl (Attempt.next_proposal hx)) fun _ => id
  | enterSequence hn ha =>
    have hl := refreshed_ledger s (Ledger.head s.ledger)
    refine .before rfl ?_ (fun b hb => by cases hb) ?_
    · show next? (Ledger.head (s.refreshed _).ledger).number = _
      rw [hl]
      exact hn
    · show InForce epoch policy (bare (s.refreshed _).ledger) _
      rw [hl]
      exact hs.refreshed hr hc
  | enterRound ha hn =>
    refine hs.turn ha rfl rfl rfl rfl (fun x hx => .inl (Attempt.next_proposal hx)) fun he => ?_
    -- the height has been decided already, so no other round of it is entered
    have hnum := toNat_of_next? hn
    rw [he] at hnum
    omega
  | accept hm hp hl =>
    refine hs.turn hp.attempt rfl rfl rfl rfl (fun x hx => .inr ?_) fun _ hd => ?_
    · obtain rfl := Option.some.inj hx
      exact hp.parent
    · exact absurd (hp.fresh ▸ by decide) hd
  | support hm hp hl =>
    refine hs.turn hp.attempt rfl rfl rfl rfl (fun x hx => .inr ?_) fun _ hd => ?_
    · obtain rfl := Option.some.inj hx
      exact hp.parent
    · exact absurd (hp.fresh ▸ by decide) hd
  | countPrepare hm hd hp =>
    exact hs.turn hd.attempt rfl rfl rfl rfl (fun x hx => .inl hx) fun _ => id
  | lock hm hd hp hq hn =>
    refine hs.turn hd.attempt rfl rfl rfl rfl (fun x hx => .inl hx) fun _ hdone => ?_
    exact absurd (Nat.lt_trans hn (by decide)) hdone
  | countCommit hm hd hseal hp =>
    exact hs.turn hd.attempt rfl rfl rfl rfl (fun x hx => .inl hx) fun _ => id
  | refuse hm hd hseal hp hq hn hl =>
    exact hs.turn hd.attempt rfl rfl rfl rfl (fun x hx => .inl hx) fun _ _ => Nat.lt_irrefl _
  | @finalize a b m commits ledger hm hd hseal hp hq hn hl =>
    -- the committee that decides is the one in office before the block that it adds
    obtain ⟨⟨-, hnext⟩, hoffice⟩ := hs.decides hf ⟨hd, hseal, hp, hq, hn⟩
    refine .after rfl ?_ (Nat.lt_irrefl _) (bare_of_appended hl) hoffice
    show (Ledger.head ledger).number = _
    rw [LawfulLedger.head_of_cons (LawfulLedger.appended hl)]
    exact (hf a hd.attempt).number b hd.proposal

theorem Move.linked {H : Message → Prop} (h : Move origin heard s es t)
    (hs : s.Seated epoch policy) (hf : s.Coherent H) (hc : Chained s.ledger) :
    Linked (headers t.ledger) := by
  rcases h.ledger with hl | ⟨b, rfl, hb, happ⟩
  · rw [hl]
    exact hc.linked
  · obtain ⟨-, -, a, c, m, commits, -, hd, rfl⟩ := h.decides hb
    obtain ⟨hs', he⟩ := hc.head_cons
    have hl := hc.linked
    rw [LawfulLedger.appended happ]
    rw [he] at hl ⊢
    exact List.isChain_cons_cons.mpr ⟨(hs.decides hf hd).1, hl⟩

end Stance

namespace Replica

variable {start r : Replica σ} {h : List (Moment σ)}

/-- The ledger of a run in which nobody else replaces it only grows. -/
theorem Run.suffix (hr : Run start h r) (hl : ∀ m ∈ h, ∀ l, m.event ≠ .replace l) :
    headers start.ledger <:+ headers r.ledger := by
  induction hr with
  | nil => exact List.suffix_refl _
  | @step h r e _ ih =>
    obtain ⟨-, hm, -⟩ := Moment.moves (m := ⟨r, e⟩) (hl _ List.mem_cons_self)
    exact (ih fun m hm => hl m (List.mem_cons_of_mem _ hm)).trans hm.suffix

theorem create_office {signer : Signer} {ledger : σ} {gossip : Gossip} {timer : Timer}
    {snapshots capacity : Nat}
    (hc : create signer ledger (.empty epoch policy snapshots) gossip timer capacity = .ok start)
    (hl : Chained ledger) : InForce epoch policy (bare ledger) start.committee.members := by
  obtain ⟨s, -, hs, hcom⟩ := create_recalls hc
  obtain ⟨hs', hbare⟩ := hl.bare_cons
  rw [lookup_eq_findIn hl.collisionless, hbare] at hs
  rw [hbare, hcom]
  exact .known hs

/-- Whatever the ledger of a run has had in it, it has still. -/
theorem Run.suffix_after (hr : Run start h r) (hl : ∀ m ∈ h, ∀ l, m.event ≠ .replace l) :
    ∀ m ∈ h, headers m.after.ledger <:+ headers r.ledger := by
  induction hr with
  | nil => simp
  | @step h r e _ ih =>
    intro m hm
    rcases List.mem_cons.mp hm with rfl | hm
    · exact List.suffix_refl _
    · obtain ⟨-, hmoves, -⟩ := Moment.moves (m := ⟨r, e⟩) (hl _ List.mem_cons_self)
      exact (ih (fun m hm => hl m (List.mem_cons_of_mem _ hm)) m hm).trans hmoves.suffix

/-- In a run of which the replica alone adds to its ledger, the ledger is a chain and the committee is
the one in office. -/
theorem Run.seated (hr : Run start h r) (hs : start.attempt = none)
    (ha : start.archive.Recalls epoch policy start.ledger)
    (hm : InForce epoch policy (bare start.ledger) start.committee.members)
    (hl : ∀ m ∈ h, ∀ l, m.event ≠ .replace l) (hn : Chained start.ledger)
    (hc : Collisionless (headers r.ledger)) :
    r.archive.Recalls epoch policy r.ledger ∧ r.stance.Seated epoch policy ∧ Chained r.ledger := by
  induction hr with
  | nil => exact ⟨ha, .idle hs hm, hn⟩
  | @step h r e hr ih =>
    obtain ⟨-, hmoves, -⟩ := Moment.moves (m := ⟨r, e⟩) (hl _ List.mem_cons_self)
    obtain ⟨hrec, hseat, hchain⟩ := ih (fun m hm => hl m (List.mem_cons_of_mem _ hm))
      (hc.mono hmoves.suffix.subset)
    have hkeep := hmoves.preserve (E := fun _ => True)
      (P := fun s _ => s.archive.Recalls epoch policy s.ledger ∧ s.Coherent (fun _ => True) ∧
        s.Seated epoch policy ∧ Chained s.ledger) [] ?_ (by simp)
      ⟨hrec, (hr.coherent hs).mono fun _ _ => trivial, hseat, hchain⟩
    · exact ⟨hkeep.1, hkeep.2.2⟩
    · rintro u v fs log hmove - ⟨gs, hgs⟩ ⟨hrec, hcoh, hseat, hchain⟩
      have hv : Collisionless (headers v.ledger) := hc.mono hgs.suffix.subset
      have hne : headers v.ledger ≠ [] := fun h0 =>
        hchain.nonempty (List.suffix_nil.mp (h0 ▸ hmove.suffix))
      exact ⟨hmove.recalls hrec hv, hmove.coherent (by simp) hcoh,
        hmove.seated hseat hcoh hrec hchain, hne, hmove.linked hseat hcoh hchain, hv⟩

end Replica

end BlockAgreement
