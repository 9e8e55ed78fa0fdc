import BlockAgreement.Proofs.Replica.Coherence

/-!
# What a replica hands to its ledger

In one moment a replica hands over one block at most. It is the accepted proposal, with the committed
seals of a quorum of Commits, and if the ledger takes it, the ledger has grown by it and by nothing else.
-/

set_option autoImplicit false

namespace BlockAgreement

variable {σ : Type} [Scheme] [Ledger σ]

namespace Stance

structure Decides (s : Stance σ) (a : Attempt) (b : Block) (m : Message) (commits : Poll) : Prop
    extends s.Counts a b .commit m where
  sealed : m.verifyCommittedSeal b.hash = .ok ()
  counted : a.commits.add m = .ok commits
  quorum : s.committee.quorum ≤ commits.size
  undecided : s.phase < .committed

omit [Ledger σ] in
theorem Decides.commits {s : Stance σ} {a : Attempt} {b : Block} {m : Message} {commits : Poll}
    {H : Message → Prop} (hd : s.Decides a b m commits) (hs : s.Coherent H) :
    commits.committee.members = s.committee.members ∧
      ∀ c ∈ commits.messages, c.CommitsTo ⟨a.view, b.hash⟩ ∧ (H c ∨ c = m) := by
  have hf := hs a hd.attempt
  obtain ⟨-, hcom, -, hmem⟩ := Poll.add_spec hd.counted
  refine ⟨hcom ▸ hf.committee, fun c hc => ?_⟩
  rcases hmem c hc with hc | rfl
  · obtain ⟨x, hx, hto, hh⟩ := hf.counted c hc
    obtain rfl := Option.some.inj (hx.symm.trans hd.proposal)
    exact ⟨hto, .inl hh⟩
  · exact ⟨⟨hd.kind, hd.verified, hd.subject, hd.sealed⟩, .inr rfl⟩

omit [Ledger σ] in
theorem Decides.senders {s : Stance σ} {a : Attempt} {b : Block} {m : Message} {commits : Poll}
    {H : Message → Prop} {committee : Committee} (hd : s.Decides a b m commits) (hs : s.Coherent H)
    (hc : committee.members = s.committee.members) :
    commits.senders.Nodup ∧ (∀ x ∈ commits.senders, x ∈ committee.members) ∧
      committee.quorum ≤ commits.senders.length := by
  obtain ⟨hcom, -⟩ := hd.commits hs
  refine ⟨commits.distinct, fun x hx => ?_, ?_⟩
  · obtain ⟨y, hy, rfl⟩ := List.mem_map.mp hx
    rw [hc, ← hcom]
    exact commits.authorized y hy
  · rw [Committee.quorum_congr hc, Poll.senders, List.length_map]
    exact hd.quorum

variable {origin s t u : Stance σ} {heard : Option Message} {es : List Effect} {b : Block}

theorem Move.decides (h : Move origin heard s es t) (hb : .commit b ∈ es) :
    s = origin ∧ (∀ l, Ledger.append origin.ledger b = .ok l → t.ledger = l) ∧
      ∃ a c m commits, heard = some m ∧ origin.Decides a c m commits ∧
        b = c.withSealsOf commits := by
  have hvoice {m : Option Message} : .commit b ∉ voice m := fun h => by
    obtain ⟨c, -, he⟩ := mem_voice h
    cases he
  cases h with
  | finalize hm hc hs hp hq hn hl =>
    obtain rfl : b = _ := by simpa using hb
    refine ⟨rfl, fun l happ => ?_, _, _, _, _, hm, ⟨hc, hs, hp, hq, hn⟩, rfl⟩
    exact Except.ok.inj (hl.symm.trans happ)
  | refuse hm hc hs hp hq hn hl =>
    obtain rfl : b = _ := by simpa using hb
    refine ⟨rfl, fun l happ => ?_, _, _, _, _, hm, ⟨hc, hs, hp, hq, hn⟩, rfl⟩
    cases hl.symm.trans happ
  | propose => exact absurd hb hvoice
  | ask => exact absurd hb hvoice
  | accept => exact absurd hb hvoice
  | support => exact absurd hb hvoice
  | answer => exact absurd hb hvoice
  | lock => exact absurd hb hvoice
  | _ => cases hb

theorem refreshed_ledger (s : Stance σ) (head : Header) :
    (s.refreshed head).ledger = s.ledger := by
  unfold refreshed
  split <;> rfl

theorem Move.ledger (h : Move origin heard s es t) :
    t.ledger = s.ledger ∨
      ∃ b, s = origin ∧ .commit b ∈ es ∧ Ledger.append origin.ledger b = .ok t.ledger := by
  cases h with
  | finalize hm hc hs hp hq hn hl => exact .inr ⟨_, rfl, List.mem_singleton_self _, hl⟩
  | enterSequence => exact .inl (refreshed_ledger s _)
  | _ => exact .inl rfl

theorem Moves.ledger (h : Moves origin heard s es t) (hs : s.ledger = origin.ledger) :
    t.ledger = origin.ledger ∨
      ∃ b, .commit b ∈ es ∧ Ledger.append origin.ledger b = .ok t.ledger := by
  induction h with
  | refl => exact .inl hs
  | step _ hm ih =>
    rcases hm.ledger with hl | ⟨b, -, hb, happ⟩
    · rw [hl]
      exact ih.imp_right fun ⟨b, hb, happ⟩ => ⟨b, List.mem_append_right _ hb, happ⟩
    · exact .inr ⟨b, List.mem_append_left _ hb, happ⟩

variable [LawfulLedger σ]

theorem Move.suffix (h : Move origin heard s es t) : headers s.ledger <:+ headers t.ledger := by
  rcases h.ledger with hl | ⟨b, rfl, -, happ⟩
  · simp [hl]
  · rw [LawfulLedger.appended happ]
    exact List.suffix_cons _ _

theorem Moves.suffix (h : Moves origin heard s es t) : headers s.ledger <:+ headers t.ledger := by
  induction h with
  | refl => exact List.suffix_refl _
  | step _ hm ih => exact ih.trans hm.suffix

/-- A ledger that has grown in a moment does not grow again in it. -/
theorem Moves.settled (h : Moves origin heard s es t)
    (hs : (headers origin.ledger).length < (headers s.ledger).length) : t.ledger = s.ledger := by
  induction h with
  | refl => rfl
  | step hu hm ih =>
    rcases hm.ledger with hl | ⟨b, rfl, -, -⟩
    · rw [hl]
      exact ih
    · exact absurd hs (Nat.not_lt_of_le hu.suffix.length_le)

/-- Any ledger in the course of a moment is the first one or the last one. -/
theorem Moves.ledger_or {fs : List Effect} (h : Moves origin heard s es t)
    (ht : Moves origin heard t fs u) (hs : s.ledger = origin.ledger) :
    t.ledger = origin.ledger ∨ t.ledger = u.ledger := by
  rcases h.ledger hs with hl | ⟨b, -, happ⟩
  · exact .inl hl
  · refine .inr (ht.settled ?_).symm
    rw [LawfulLedger.appended happ]
    exact Nat.lt_succ_self _

omit [LawfulLedger σ] in
theorem refreshed_archive (s : Stance σ) (head : Header) :
    (s.refreshed head).archive = (s.archive.snapshot s.ledger head.number head.hash).2 := by
  unfold refreshed
  split
  · rename_i he
    rw [he]
  · rename_i he
    rw [he]

variable {epoch : Epoch} {policy : ProposerPolicy}

theorem refreshed_committee {s : Stance σ} (hs : s.archive.Recalls epoch policy s.ledger)
    (hc : Chained s.ledger) {snap : Snapshot}
    (hk : SnapshotOf epoch policy (Ledger.lookup s.ledger) (Ledger.head s.ledger).hash snap) :
    (s.refreshed (Ledger.head s.ledger)).committee = snap.committee := by
  have hsnap := Archive.snapshot_head hs hc hk
  unfold refreshed
  split
  · rename_i e archive he
    rw [he] at hsnap
    cases hsnap
  · rename_i u archive he
    rw [he] at hsnap
    obtain rfl := Except.ok.inj hsnap
    rfl

theorem Move.recalls (h : Move origin heard s es t)
    (hs : s.archive.Recalls epoch policy s.ledger) (ht : Collisionless (headers t.ledger)) :
    t.archive.Recalls epoch policy t.ledger := by
  have hproposal {a : Attempt} {p : Preprepare} {m : Message} {archive : Archive}
      (hp : s.Proposes a p m archive) : archive.Recalls epoch policy s.ledger := by
    have hcon := Archive.verifyProposal_consulted s.archive s.ledger p.proposal
    rw [hp.valid] at hcon
    exact hs.consulted hcon
  cases h with
  | consult number hash => exact (hs.snapshot number hash).1
  | enterSequence =>
    show (s.refreshed _).archive.Recalls epoch policy (s.refreshed _).ledger
    rw [refreshed_archive, refreshed_ledger]
    exact (hs.snapshot _ _).1
  | accept hm hp hl => exact hproposal hp
  | support hm hp hl => exact hproposal hp
  | finalize hm hc hq hp hk hn hl =>
    refine hs.mono fun d g hg => lookup_mono ?_ ht hg
    rw [LawfulLedger.appended hl]
    exact List.subset_cons_self _ _
  | _ => exact hs

end Stance

namespace Replica

variable {m : Moment σ} {b : Block}

/-- A block that is handed over is decided on in the stance at the beginning of the moment. -/
theorem Moment.decides (hb : .commit b ∈ m.shown) :
    ∃ a c d commits, m.heard = some d ∧ m.before.stance.Decides a c d commits ∧
      b = c.withSealsOf commits := by
  have he : ∀ l, m.event ≠ .replace l := by
    intro l he
    rw [(Moment.replaced he).1] at hb
    cases hb
  obtain ⟨-, hm, -⟩ := Moment.moves he
  obtain ⟨u, es, v, hmove, hes⟩ := hm.exists_move (List.mem_filter.mpr ⟨hb, rfl⟩)
  exact (hmove.decides hes).2.2

/-- A block that the ledger takes is the only one by which it grows. -/
theorem Moment.ledger (he : ∀ l, m.event ≠ .replace l) :
    m.after.ledger = m.before.ledger ∨
      ∃ b, .commit b ∈ m.shown ∧ Ledger.append m.before.ledger b = .ok m.after.ledger := by
  obtain ⟨-, hm, -⟩ := Moment.moves he
  exact (hm.ledger rfl).imp_right fun ⟨b, hb, happ⟩ => ⟨b, (List.mem_filter.mp hb).1, happ⟩

variable [LawfulLedger σ] {epoch : Epoch} {policy : ProposerPolicy} {start r : Replica σ}
  {h : List (Moment σ)}

/-- A block that the ledger takes is there at the end of the moment. -/
theorem Moment.mem_headers (ha : m.Accepted) (he : ∀ l, m.event ≠ .replace l)
    (hb : .commit b ∈ m.shown) : b.header ∈ headers m.after.ledger := by
  obtain ⟨-, hm, -⟩ := Moment.moves he
  have hkeep := hm.preserve
    (E := fun e => ∀ b, e = .commit b → ∃ l, Ledger.append m.before.ledger b = .ok l)
    (P := fun s es => ∀ b, .commit b ∈ es → b.header ∈ headers s.ledger) [] ?_ ?_ (by simp)
  · exact hkeep b (by simpa [Effect.isSpoken] using hb)
  · rintro u v fs log hmove hE - hu b hb
    rcases List.mem_append.mp hb with hb | hb
    · obtain ⟨l, hl⟩ := hE _ hb b rfl
      rw [(hmove.decides hb).2.1 l hl, LawfulLedger.appended hl]
      exact List.mem_cons_self
    · exact hmove.suffix.subset (hu b hb)
  · rintro e he b rfl
    exact ha b (List.mem_filter.mp he).1

theorem create_recalls {signer : Signer} {ledger : σ} {gossip : Gossip} {timer : Timer}
    {snapshots capacity : Nat}
    (hc : create signer ledger (.empty epoch policy snapshots) gossip timer capacity = .ok start) :
    ∃ s, start.archive.Recalls epoch policy start.ledger ∧
      SnapshotOf epoch policy (Ledger.lookup ledger) (Ledger.head ledger).hash s ∧
      start.committee = s.committee := by
  obtain ⟨s, hs, -, hl, hcom, -⟩ := create_spec hc
  have hr := (Archive.empty_recalls epoch policy snapshots ledger).snapshot
    (Ledger.head ledger).number (Ledger.head ledger).hash
  rw [hs] at hr
  exact ⟨s, hl.symm ▸ hr.1, hr.2 s rfl, hcom⟩

theorem Run.recalls (hr : Run start h r)
    (hs : start.archive.Recalls epoch policy start.ledger)
    (hc : ∀ m ∈ h, Collisionless (headers m.after.ledger))
    (hl : ∀ m ∈ h, ∀ l, m.event = .replace l → headers m.before.ledger ⊆ headers l) :
    r.archive.Recalls epoch policy r.ledger := by
  induction hr with
  | nil => exact hs
  | @step h r e _ ih =>
    have ih := ih (fun m hm => hc m (List.mem_cons_of_mem _ hm))
      fun m hm => hl m (List.mem_cons_of_mem _ hm)
    have hafter : Collisionless (headers (r.react e).ledger) := hc _ List.mem_cons_self
    by_cases he : ∃ l, e = .replace l
    · obtain ⟨l, rfl⟩ := he
      exact ih.mono fun d g hg => lookup_mono (hl _ List.mem_cons_self l rfl) hafter hg
    · obtain ⟨-, hm, -⟩ := Moment.moves (m := ⟨r, e⟩) (by simpa using he)
      refine hm.preserve (E := fun _ => True)
        (P := fun s _ => s.archive.Recalls epoch policy s.ledger) [] ?_ (by simp) ih
      rintro u v fs log hmove - ⟨gs, hgs⟩ hu
      exact hmove.recalls hu (hafter.mono hgs.suffix.subset)

end Replica

end BlockAgreement
