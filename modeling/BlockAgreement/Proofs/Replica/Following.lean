import BlockAgreement.Proofs.Replica.Clock
import BlockAgreement.Proofs.Replica.Finality
import BlockAgreement.Proofs.Replica.Rounds
import BlockAgreement.Proofs.Replica.Support

/-!
# A replica follows its ledger

A block that a replica adds to its ledger takes it to the next height at once. A block that someone else
has added does so as soon as the replica is told that the head has moved. At every other time the replica
is at the height after the head, with the committee after the head, and counts the votes and requests of
this committee and of nobody else.
-/

set_option autoImplicit false

namespace BlockAgreement

theorem Poll.add_iff (p : Poll) (m : Message) :
    (∃ q, p.add m = .ok q) ↔ m.sender ∈ p.committee.members := by
  constructor
  · rintro ⟨q, hq⟩
    exact (Poll.add_spec hq).2.2.1
  · intro hm
    obtain ⟨q, hq, -⟩ := Poll.add_member hm
    exact ⟨q, hq⟩

theorem RoundChanges.add_iff (rc : RoundChanges) (round : Round) (m : Message) :
    (∃ n, (rc.add round m).1 = .ok n) ↔ m.sender ∈ (rc.poll round).committee.members := by
  rw [← Poll.add_iff]
  constructor
  · rintro ⟨n, hn⟩
    obtain ⟨poll, hp, -⟩ := RoundChanges.add_ok.mp hn
    exact ⟨poll, hp⟩
  · rintro ⟨poll, hp⟩
    exact ⟨poll.size, RoundChanges.add_ok.mpr ⟨poll, hp, rfl⟩⟩

namespace Replica

variable {σ : Type} [Ledger σ] {r s : Replica σ} {m : Message}

def GoesOn (r : Replica σ) : Prop := r.started = true ∨ next? (Ledger.head r.ledger).number ≠ none

def Abreast (r : Replica σ) : Prop :=
  r.GoesOn → ∃ view, r.view? = some view ∧ (Ledger.head r.ledger).number < view.sequence

theorem Abreast.stay (hr : r.Abreast) (hl : s.ledger = r.ledger) (hs : s.started = true → r.GoesOn)
    (hv : ∀ view, r.view? = some view →
      ∃ later, s.view? = some later ∧ view.sequence ≤ later.sequence) : s.Abreast := by
  intro hp
  have hp : r.GoesOn := hp.elim hs fun hn => .inr (hl ▸ hn)
  obtain ⟨view, hview, hlt⟩ := hr hp
  obtain ⟨later, hlater, hle⟩ := hv view hview
  exact ⟨later, hlater, hl ▸ UInt64.lt_of_lt_of_le hlt hle⟩

/-- The ledger stays, or the replica has gone on to a height after its head. -/
def Follows (r s : Replica σ) : Prop := s.ledger = r.ledger ∨ s.Abreast

section Votes

variable [Scheme]

theorem startRound_abreast (r : Replica σ) : (r.startRound 0).Abreast := by
  refine startRound_induction (P := Abreast) r 0 (fun sequence hn hle => ?_)
    (fun _ _ _ h0 => absurd rfl h0) (fun _ view _ hview hgt _ _ => ⟨view, hview, UInt64.not_le.mp hgt⟩)
    fun hnone hp => absurd hnone (hp.resolve_left Bool.false_ne_true)
  · obtain ⟨view, -, hview, -, hnext, -⟩ := (startSequence_leaves hn hle).view
    exact fun _ => ⟨view, hview, lt_of_next? hnext⟩

omit [Ledger σ] in
theorem sendNextRoundChange_ledger (r : Replica σ) : r.sendNextRoundChange.ledger = r.ledger := by
  unfold sendNextRoundChange sendRoundChange
  split
  · rfl
  · split
    · rfl
    · split
      · exact (broadcast_remains _ _ _).ledger
      · rfl

theorem Treats.follows {m : Message} {v : Except Rejection Unit} (h : r.Treats m v s)
    (hk : m.kind = .commit) : Follows r s := by
  have hother {kind : MessageKind} {P : Prop} (hkind : m.kind = kind) (hne : kind ≠ .commit) : P :=
    absurd (hkind.symm.trans hk) hne
  cases h with
  | refuse => exact .inl rfl
  | consult => exact .inl rfl
  | answer _ hkind => exact hother hkind (by decide)
  | object hkind => exact hother hkind (by decide)
  | accept hp => exact hother hp.kind (by decide)
  | support hp => exact hother hp.kind (by decide)
  | countPrepare hc => exact hother hc.kind (by decide)
  | lock hc => exact hother hc.kind (by decide)
  | countCommit => exact .inl rfl
  | finalize => exact .inr (startRound_abreast _)
  | @release a x commits fault hc =>
    have hreleased : Keeps r (r.released { a with commits } x) [] := released_keeps hc.attempt (by rfl)
    exact .inl ((sendNextRoundChange_ledger _).trans hreleased.ledger)
  | tally ha => exact hother ha.request.kind (by decide)
  | join ha => exact hother ha.request.kind (by decide)
  | enter ha => exact hother ha.request.kind (by decide)

theorem receive_follows {d : Delivery} (hk : d.message.kind = .commit) : Follows r (r.receive d) := by
  have hp : Follows r (r.process d.message).2 := (process_treats r d.message).follows hk
  have hquiet {s t : Replica σ} (hs : Follows r s) (ht : Holds s t) (hst : t.started = s.started) :
      Follows r t := by
    rcases hs with hs | hs
    · exact .inl (ht.ledger.trans hs)
    · exact .inr (hs.stay ht.ledger (fun hrun => .inl (hst ▸ hrun)) fun view hv =>
        ⟨view, ht.view.trans hv, UInt64.le_refl _⟩)
  refine receive_induction r d hp (fun s hs => ?_) (fun s _ _ hs => ?_) fun s e hs => ?_
  · exact hquiet hs (relay_remains s _).keeps.toHolds (relay_started s _)
  · exact hquiet hs (postpone_holds s d) (postpone_started s d)
  · exact hquiet hs (drop_remains s _ e).keeps.toHolds rfl

/-- Whatever happens to a replica, its height does not fall back. -/
theorem Moment.sequence_le {m : Moment σ} {view : View} (hv : m.before.view? = some view) :
    ∃ later, m.after.view? = some later ∧ view.sequence ≤ later.sequence := by
  obtain ⟨later, hlater⟩ := Option.ne_none_iff_exists'.mp
    (Moment.view_ne_none (m := m) (hv ▸ Option.some_ne_none view))
  refine ⟨later, hlater, UInt64.not_lt.mp fun hlt => ?_⟩
  have hle := m.advances.le
  rw [progress_eq hv, progress_eq hlater, WithBot.coe_le_coe] at hle
  exact not_lt_of_ge hle (Progress.of_lt_of.mpr (.inl (View.lt_iff.mpr (.inl hlt))))

/-- Only a ledger that someone else has added to can get ahead of a replica. -/
theorem Moment.abreast {m : Moment σ} (he : ∀ l, m.event ≠ .replace l) (hb : m.before.Abreast) :
    m.after.Abreast := by
  have hstay (hl : m.after.ledger = m.before.ledger) : m.after.Abreast :=
    hb.stay hl (fun hs => (react_runs hs).imp_right And.right) fun view hv => Moment.sequence_le hv
  rcases Moment.ledger he with hl | ⟨b, hshown, -⟩
  · exact hstay hl
  · obtain ⟨a, x, c, commits, hheard, hd, -⟩ := Moment.decides hshown
    obtain ⟨d, ready, rfl, hafter⟩ := Moment.receives hheard
    rcases receive_follows (r := { m.before with ready }) hd.kind with hl | hl
    · exact hstay ((congrArg Replica.ledger hafter).trans hl)
    · rw [hafter]
      exact hl

/-- The replica has been told of the head since the ledger was replaced the last time, by being started or
by hearing that the head has moved. The newest moment stands first. -/
def Informed : List (Moment σ) → Prop
  | [] => False
  | m :: h =>
    match m.event with
    | .start => m.before.started = false ∨ Informed h
    | .input .headMoved => m.before.started = true ∨ Informed h
    | .replace _ => False
    | _ => Informed h

theorem Run.abreast {start : Replica σ} {h : List (Moment σ)} (hr : Run start h r)
    (hi : Informed h) : r.Abreast := by
  induction hr with
  | nil => exact hi.elim
  | @step h r e hr ih =>
    have hkeep (he : ∀ l, e ≠ .replace l) (hi : Informed h) : (r.react e).Abreast :=
      Moment.abreast (m := ⟨r, e⟩) he (ih hi)
    cases e with
    | start =>
      rcases hi with hs | hi
      · have hs : r.started = false := hs
        simp only [react, hs, Bool.false_eq_true, if_false]
        exact startRound_abreast _
      · exact hkeep (by simp) hi
    | input i =>
      cases i with
      | headMoved =>
        rcases hi with hs | hi
        · have hs : r.started = true := hs
          simp only [react, hs, if_true, dispatch]
          exact startRound_abreast r
        · exact hkeep (by simp) hi
      | _ => exact hkeep (by simp) hi
    | replace l => exact hi.elim
    | _ => exact hkeep (by simp) hi

end Votes

section Chains

variable [Scheme] [LawfulLedger σ] {epoch : Epoch} {policy : ProposerPolicy} {start : Replica σ}
  {h : List (Moment σ)}

theorem Abreast.seated (hb : r.Abreast) (hlegal : r.stance.Legal epoch policy)
    (hc : Chained r.ledger) (hp : r.GoesOn) :
    ∃ a s, r.attempt = some a ∧ next? (Ledger.head r.ledger).number = some a.view.sequence ∧
      SnapshotOf epoch policy (Ledger.lookup r.ledger) (Ledger.head r.ledger).hash s ∧
      r.committee.members = s.committee.members := by
  obtain ⟨view, hview, hlt⟩ := hb hp
  obtain ⟨a, ha, rfl⟩ := Option.map_eq_some_iff.mp hview
  obtain ⟨g, hg, hnext, s, hs, hm⟩ := hlegal.seated a ha
  have hg : g ∈ headers r.ledger := hg
  -- the header before the current height is the head, since no header is above the head
  have hhead : g = Ledger.head r.ledger := by
    obtain ⟨hs', he⟩ := hc.head_cons
    have hl := hc.linked
    rw [he] at hl hg
    rcases List.mem_cons.mp hg with hg | hg
    · exact hg
    · have hbelow := hl.number_lt g hg
      have hsucc := toNat_of_next? hnext
      rw [UInt64.lt_iff_toNat_lt] at hlt
      omega
  subst hhead
  exact ⟨a, s, ha, hnext, hs, hm.symm⟩

/-- On a chain that grows and whose head is known, a replica that has been told of the head is at the
height after it, unless it has stopped because there is none. The committee of the replica is that of
the snapshot after the head, and the Prepares, the Commits and the requests for any round are counted of
its members and of nobody else. -/
theorem follows_head {signer : Signer} {ledger : σ} {gossip : Gossip} {timer : Timer}
    {snapshots capacity : Nat}
    (hc : create signer ledger (.empty epoch policy snapshots) gossip timer capacity = .ok start)
    (hr : Run start h r) (hg : ∀ m ∈ h, m.Grounded) (hi : Informed h)
    (hp : r.started = true ∨ next? (Ledger.head r.ledger).number ≠ none) :
    ∃ a s, r.attempt = some a ∧ next? (Ledger.head r.ledger).number = some a.view.sequence ∧
      (r.archive.snapshot r.ledger (Ledger.head r.ledger).number (Ledger.head r.ledger).hash).1 = .ok s ∧
      r.committee.members = s.committee.members ∧
      ∀ m : Message, ((∃ q, a.prepares.add m = .ok q) ↔ m.sender ∈ s.committee.members) ∧
        ((∃ q, a.commits.add m = .ok q) ↔ m.sender ∈ s.committee.members) ∧
        ∀ round, (∃ n, (r.roundChanges.add round m).1 = .ok n) ↔ m.sender ∈ s.committee.members := by
  obtain ⟨-, -, -, -, -, hattempt, -⟩ := create_spec hc
  obtain ⟨-, hstart, -⟩ := create_recalls hc
  obtain ⟨hrec, hlegal⟩ := hr.legal hattempt hstart hg
  have hchain : Chained r.ledger := by
    cases hr with
    | nil => exact hi.elim
    | step e _ => exact (hg _ List.mem_cons_self).after.1
  obtain ⟨a, s, ha, hnext, hs, hm⟩ := (hr.abreast hi).seated hlegal hchain hp
  have hcounted := hr.counted (by simp [view?, hattempt]) a.view (view?_of_attempt ha)
  have hprepares : a.prepares.committee.members = s.committee.members :=
    (hr.seconded hattempt a ha).committee.trans hm
  have hcommits : a.commits.committee.members = s.committee.members :=
    (hr.coherent hattempt a ha).committee.trans hm
  have hrequests (round : Round) :
      (r.roundChanges.poll round).committee.members = s.committee.members :=
    (hcounted.poll round).1.trans hm
  refine ⟨a, s, ha, hnext, Archive.snapshot_head hrec hchain hs, hm, fun m => ⟨?_, ?_, fun round => ?_⟩⟩
  · rw [Poll.add_iff, hprepares]
  · rw [Poll.add_iff, hcommits]
  · rw [RoundChanges.add_iff, hrequests]

end Chains

end Replica

namespace Pair

open Replica

attribute [local instance] Scheme.plain

def grown : MemoryLedger := .ofHeaders [genesis, block.header]

def importEvents : List (Event MemoryLedger) := [.start, .replace grown, .input .headMoved]

/-- The first validator is at height 2 then, with the committee of both validators. -/
theorem follows_head_import : ∃ start a, ∃ s : Snapshot, replica first = .ok start ∧
    (importEvents.foldl react start).attempt = some a ∧ a.view.sequence = 2 ∧
    (importEvents.foldl react start).committee.members = s.committee.members ∧
    ∀ m : Message, ((∃ q, a.prepares.add m = .ok q) ↔ m.sender ∈ s.committee.members) ∧
      ((∃ q, a.commits.add m = .ok q) ↔ m.sender ∈ s.committee.members) ∧
      ∀ round, (∃ n, ((importEvents.foldl react start).roundChanges.add round m).1 = .ok n) ↔
        m.sender ∈ s.committee.members := by
  obtain ⟨start, hc, hg, hgrows, hs, hhead⟩ := exists_replica (k := first) (P := fun start =>
    (∀ m ∈ start.moments importEvents, (Chained m.before.ledger ∧ m.before.KnowsHead) ∧
      (Chained m.after.ledger ∧ m.after.KnowsHead)) ∧
    headers (start.react .start).ledger <:+ headers grown ∧
    ((start.react .start).react (.replace grown)).started = true ∧
    next? (Ledger.head (importEvents.foldl react start).ledger).number = some 2) (by decide +kernel)
  have hgrounded : ∀ m ∈ start.moments importEvents, m.Grounded := by
    intro m hm
    refine ⟨(hg m hm).1, (hg m hm).2, fun l hl => ?_⟩
    simp only [importEvents, moments, List.nil_append, List.cons_append, List.mem_cons,
      List.not_mem_nil, or_false] at hm
    rcases hm with rfl | rfl | rfl
    · cases hl
    · cases hl
      exact hgrows
    · cases hl
  obtain ⟨a, s, ha, hnext, -, hm, haccept⟩ :=
    follows_head hc (moments_run start importEvents) hgrounded (.inl hs) (.inr (by simp [hhead]))
  exact ⟨start, a, s, hc, ha, (Option.some.inj (hhead.symm.trans hnext)).symm, hm, haccept⟩

end Pair

end BlockAgreement
