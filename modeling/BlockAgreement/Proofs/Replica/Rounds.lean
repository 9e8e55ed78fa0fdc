import BlockAgreement.Proofs.Committee.Quorum
import BlockAgreement.Proofs.Replica.Course

/-!
# Rounds and their quorums

A round above the first one is entered when a quorum of members has asked for it. No quorum is missed: as
long as a round can still be entered, less than a quorum has asked for it, so that the request that makes
the quorum is seen to do so.
-/

set_option autoImplicit false

namespace BlockAgreement

namespace RoundChanges

variable {P Q : Round → Poll → Prop} {rc : RoundChanges} {round : Round} {m : Message}

def All (P : Round → Poll → Prop) (rc : RoundChanges) : Prop := ∀ e ∈ rc.polls, P e.1 e.2

theorem all_empty (sequence : Height) (committee : Committee) : All P (.empty sequence committee) := by
  simp [All, empty]

theorem All.clear (h : All P rc) (hPQ : ∀ r poll, round ≤ r → P r poll → Q r poll) :
    All Q (rc.clear round) := by
  intro e he
  obtain ⟨he, hr⟩ := List.mem_filter.mp he
  rw [Bool.and_eq_true, decide_eq_true_iff] at hr
  exact hPQ _ _ hr.1 (h e he)

theorem All.poll (h : All P rc) (h0 : P round (.empty ⟨rc.sequence, round⟩ rc.committee)) :
    P round (rc.poll round) := by
  unfold RoundChanges.poll SortedMap.find?
  cases hf : List.find? (·.1 = round) rc.polls with
  | none => exact h0
  | some e =>
    have hround := List.find?_some hf
    have hround : e.1 = round := of_decide_eq_true hround
    exact hround ▸ h e (List.mem_of_find?_eq_some hf)

theorem add_ok {count : Nat} : (rc.add round m).1 = .ok count ↔
    ∃ poll, (rc.poll round).add m = .ok poll ∧ poll.size = count := by
  unfold add
  split
  · rename_i poll hp
    simp [hp]
  · rename_i e he
    simp [he]

theorem All.add (h : All P rc) (hround : P round (rc.poll round))
    (hadd : ∀ poll, (rc.poll round).add m = .ok poll → P round poll) :
    All P (rc.add round m).2 := by
  unfold RoundChanges.add
  split
  · rename_i poll hp
    intro e he
    rcases SortedMap.mem_insert he with rfl | he
    · exact hadd poll hp
    · exact h e he
  · intro e he
    rcases SortedMap.mem_insert he with rfl | he
    · exact hround
    · exact h e he

theorem add_committee (rc : RoundChanges) (round : Round) (m : Message) :
    (rc.add round m).2.committee = rc.committee := by
  unfold RoundChanges.add
  split <;> rfl

end RoundChanges

namespace Position

/-- The polls are of the members, and all that they count are requests for their rounds that have been
told. -/
structure Counted [Scheme] (told : Message → Height → Prop) (p : Position) (view : View) : Prop where
  committee : p.roundChanges.committee.members = p.committee.members
  polls : p.roundChanges.All fun round poll => poll.committee.members = p.committee.members ∧
    ∀ c ∈ poll.messages, c.Requests ⟨view.sequence, round⟩ ∧ told c view.sequence

def Awaits (p : Position) (view : View) (round : Round) : Prop :=
  view.round < round ∨ p.waiting = true ∧ view.round = round

structure Pending (p : Position) (view : View) : Prop where
  height : view.sequence.toNat ≤ p.head.toNat + 1
  waits : p.waiting = true → view.round ≠ 0
  polls : p.roundChanges.All fun round poll => p.Awaits view round → poll.size < p.committee.quorum

/-- If what is heard decides a round, there is a height for it. -/
def RoomFor [Scheme] (p : Position) (heard : Option Message) : Prop :=
  ∀ view round m, heard = some m → p.Admits view round m → p.Decides view round m → next? p.head ≠ none

variable [Scheme] {told : Message → Height → Prop} {origin p q : Position} {heard : Option Message}
  {head : Height} {vs : List View} {view : View}

theorem Counted.mono {told' : Message → Height → Prop} (hc : p.Counted told view)
    (ht : ∀ m sequence, told m sequence → told' m sequence) : p.Counted told' view :=
  ⟨hc.committee, fun e he => ⟨(hc.polls e he).1, fun c hm =>
    ⟨((hc.polls e he).2 c hm).1, ht _ _ ((hc.polls e he).2 c hm).2⟩⟩⟩

theorem Counted.poll (hc : p.Counted told view) (round : Round) :
    (p.roundChanges.poll round).committee.members = p.committee.members ∧
      ∀ c ∈ (p.roundChanges.poll round).messages,
        c.Requests ⟨view.sequence, round⟩ ∧ told c view.sequence :=
  hc.polls.poll ⟨hc.committee, by simp [Poll.empty]⟩

theorem Counted.add {round : Round} {m : Message} {poll : Poll} (hc : p.Counted told view)
    (ha : p.Admits view round m) (ht : told m view.sequence)
    (hadd : (p.roundChanges.poll round).add m = .ok poll) :
    poll.committee.members = p.committee.members ∧
      ∀ c ∈ poll.messages, c.Requests ⟨view.sequence, round⟩ ∧ told c view.sequence := by
  obtain ⟨hmembers, htold⟩ := hc.poll round
  obtain ⟨-, hcommittee, -, hmessages⟩ := Poll.add_spec hadd
  refine ⟨hcommittee ▸ hmembers, fun c hm => ?_⟩
  rcases hmessages c hm with hm | rfl
  · exact htold c hm
  · exact ⟨ha.request, ht⟩

theorem Counted.counting {round : Round} {m : Message} (hc : p.Counted told view)
    (ha : p.Admits view round m) (ht : told m view.sequence) :
    (p.counting round m).Counted told view where
  committee := (congrArg Committee.members (RoundChanges.add_committee ..)).trans hc.committee
  polls := hc.polls.add (hc.poll round) fun _ hadd => hc.add ha ht hadd

theorem counted_entering (p : Position) (view : View) (committee : Committee)
    (last : Option Address) : (p.entering view committee last).Counted told view :=
  ⟨rfl, RoundChanges.all_empty _ _⟩

theorem Step.counted (h : Step origin heard head p vs q)
    (ht : ∀ m ∈ heard, ∀ view ∈ origin.view, told m view.sequence)
    (hp : ∀ view ∈ p.view, p.Counted told view) : ∀ view ∈ q.view, q.Counted told view := by
  cases h with
  | rise hw hr => exact fun view hv => ⟨(hp view hv).committee, (hp view hv).polls⟩
  | append => exact fun view hv => ⟨(hp view hv).committee, (hp view hv).polls⟩
  | ask hv hr =>
    rintro _ ⟨⟩
    have hc := hp _ hv
    exact ⟨hc.committee, hc.polls.clear fun _ _ _ h => h⟩
  | enterSequence hn hv =>
    rintro _ ⟨⟩
    exact counted_entering _ _ _ _
  | enterRound hm ha hq h0 hn =>
    rintro _ ⟨⟩
    exact counted_entering _ _ _ _
  | count hm ha hq =>
    intro view hv
    obtain rfl := Option.some.inj (ha.current.symm.trans hv)
    exact (hp _ hv).counting ha (ht _ hm _ hv)
  | miss hm ha hq hn =>
    intro view hv
    obtain rfl := Option.some.inj (ha.current.symm.trans hv)
    exact (hp _ hv).counting ha (ht _ hm _ hv)

theorem Steps.counted (h : Steps origin heard head p vs q)
    (ht : ∀ m ∈ heard, ∀ view ∈ origin.view, told m view.sequence)
    (hp : ∀ view ∈ p.view, p.Counted told view) : ∀ view ∈ q.view, q.Counted told view := by
  induction h with
  | refl => exact hp
  | step _ hs ih => exact hs.counted ht ih

omit [Scheme] in
theorem Pending.poll (hp : p.Pending view) (round : Round) (ha : p.Awaits view round) :
    (p.roundChanges.poll round).size < p.committee.quorum :=
  hp.polls.poll (fun _ => Committee.quorum_pos _) ha

omit [Scheme] in
theorem Pending.counting {round : Round} {m : Message} (hp : p.Pending view)
    (hq : ¬ p.Decides view round m) : (p.counting round m).Pending view where
  height := hp.height
  waits := hp.waits
  polls := by
    refine hp.polls.add (hp.poll round) fun poll hadd hawaits => ?_
    have hlt := hp.poll round hawaits
    have hle := (Poll.size_add hadd).2
    -- a poll grows by one at a time, so that it cannot pass the quorum without being equal to it
    have hne : poll.size ≠ p.committee.quorum := by
      intro heq
      exact hq ⟨RoundChanges.add_ok.mpr ⟨poll, hadd, heq⟩, hawaits.symm.imp_left And.left⟩
    show poll.size < p.committee.quorum
    omega

theorem Step.head_le (h : Step origin heard head p vs q) (hh : p.head ≤ head) : q.head ≤ head := by
  cases h with
  | append => exact UInt64.le_refl _
  | _ => exact hh

theorem Pending.not_miss {round : Round} {m : Message} (hp : p.Pending view)
    (ha : p.Admits view round m) (hq : p.Decides view round m) {sequence : Height}
    (hn : next? p.head = some sequence) :
    ¬ (¬ view.sequence ≤ p.head ∧ (sequence = view.sequence → round = 0)) := by
  rintro ⟨hgt, hround⟩
  have hheight := hp.height
  have hnext := toNat_of_next? hn
  rw [UInt64.le_iff_toNat_le] at hgt
  obtain rfl := hround (UInt64.toNat_inj.mp (by omega))
  have h0 : view.round = 0 := UInt64.le_antisymm (UInt64.not_lt.mp ha.above) UInt64.zero_le
  rcases hq.2 with hw | hlt
  · exact hp.waits hw h0
  · rw [h0] at hlt
    exact UInt64.lt_irrefl _ hlt

theorem Step.pending (h : Step origin heard head p vs q) (hh : p.head ≤ head)
    (hn : origin.RoomFor heard) (hp : ∀ view ∈ p.view, p.Pending view) :
    ∀ view ∈ q.view, q.Pending view := by
  cases h with
  | rise hw hr => exact fun view hv => ⟨(hp view hv).height, (hp view hv).waits, (hp view hv).polls⟩
  | append =>
    intro view hv
    have hheight := (hp view hv).height
    rw [UInt64.le_iff_toNat_le] at hh
    exact ⟨hheight.trans (Nat.succ_le_succ hh), (hp view hv).waits, (hp view hv).polls⟩
  | @ask _ view round hv hr =>
    rintro _ ⟨⟩
    have hpending := hp view hv
    refine ⟨hpending.height, fun _ h0 => ?_, ?_⟩
    · have h0 : round = 0 := h0
      exact absurd (h0 ▸ hr) UInt64.not_lt_zero
    · exact hpending.polls.clear fun _ _ hle h _ => h (.inl (UInt64.lt_of_lt_of_le hr hle))
  | enterSequence hnext hv =>
    rintro _ ⟨⟩
    exact ⟨(toNat_of_next? hnext).le, nofun, RoundChanges.all_empty _ _⟩
  | enterRound hm ha hq h0 hnext =>
    rintro _ ⟨⟩
    exact ⟨(toNat_of_next? hnext).le, nofun, RoundChanges.all_empty _ _⟩
  | count hm ha hq =>
    intro view hv
    obtain rfl := Option.some.inj (ha.current.symm.trans hv)
    exact (hp _ hv).counting hq
  | @miss view round m hm ha hq hmiss =>
    obtain ⟨sequence, hnext⟩ := Option.ne_none_iff_exists'.mp (hn view round m hm ha hq)
    exact absurd (hmiss sequence hnext) ((hp view ha.current).not_miss ha hq hnext)

theorem Steps.pending (h : Steps origin heard head p vs q) (hh : p.head ≤ head)
    (hn : origin.RoomFor heard) (hp : ∀ view ∈ p.view, p.Pending view) :
    q.head ≤ head ∧ ∀ view ∈ q.view, q.Pending view := by
  induction h with
  | refl => exact ⟨hh, hp⟩
  | step _ hs ih => exact ⟨hs.head_le ih.1, hs.pending ih.1 hn ih.2⟩

/-- A round above the first one is entered when a request decides it. -/
theorem Steps.decided (h : Steps origin heard head p vs q) {v : View} (hv : v ∈ vs)
    (h0 : v.round ≠ 0) :
    ∃ m view, heard = some m ∧ view.sequence = v.sequence ∧ origin.Admits view v.round m ∧
      origin.Decides view v.round m := by
  induction h with
  | refl => cases hv
  | step _ hs ih =>
    rcases List.mem_append.mp hv with hv | hv
    · cases hs with
      | enterSequence =>
        obtain rfl := List.mem_singleton.mp hv
        exact absurd rfl h0
      | @enterRound view round m last hm ha hq h0 hn =>
        obtain rfl := List.mem_singleton.mp hv
        exact ⟨m, view, hm, rfl, ha, hq⟩
      | _ => cases hv
    · exact ih hv

end Position

namespace Replica

open Position

variable {σ : Type} [Scheme] [Ledger σ] {start r : Replica σ} {h : List (Moment σ)}

/-- The message was heard while the replica was in this sequence. -/
def HeardAt (h : List (Moment σ)) (c : Message) (sequence : Height) : Prop :=
  ∃ m ∈ h, m.heard = some c ∧ ∃ view ∈ m.before.view?, view.sequence = sequence

omit [Scheme] [Ledger σ] in
theorem HeardAt.mono {k : List (Moment σ)} (hk : h ⊆ k) {c : Message} {sequence : Height}
    (hh : HeardAt h c sequence) : HeardAt k c sequence := by
  obtain ⟨m, hm, hc⟩ := hh
  exact ⟨m, hk hm, hc⟩

theorem Run.until {later earlier : List (Moment σ)} {m : Moment σ}
    (hr : Run start (later ++ m :: earlier) r) : Run start earlier m.before := by
  induction later generalizing r with
  | nil =>
    cases hr with
    | step e hr => exact hr
  | cons k later ih =>
    cases hr with
    | step e hr => exact ih hr

theorem Run.counted (hn : start.view? = none) (hr : Run start h r) :
    ∀ view ∈ r.view?, r.position.Counted (HeardAt h) view := by
  induction hr with
  | nil => simp [hn]
  | @step h r e _ ih =>
    refine (Moment.steps ⟨r, e⟩).counted ?_ fun view hv => (ih view hv).mono fun _ _ => .mono ?_
    · intro m hm view hv
      exact ⟨_, List.mem_cons_self, hm, view, hv, rfl⟩
    · exact List.subset_cons_self _ _

/-- Where no height is left, the request that makes a quorum is the end of the replica, unless it is
refused. -/
theorem Treats.ends {s : Replica σ} {m : Message} {v : Except Rejection Unit} {view : View}
    {round : Round} (h : r.Treats m v s) (ha : r.position.Admits view round m)
    (hd : r.position.Decides view round m)
    (hn : next? (Ledger.head r.ledger).number = none) :
    s.started = false ∨ s.position = r.position := by
  have hother {kind : MessageKind} {P : Prop} (hkind : m.kind = kind) (hne : kind ≠ .roundChange) : P :=
    absurd (hkind.symm.trans ha.request.kind) hne
  -- the message names one view, so that it is admitted and decides as a request for one round only
  have hsame {view' : View} {round' : Round} (ha' : r.position.Admits view' round' m) :
      r.position.Decides view' round' m := by
    obtain rfl := Option.some.inj (ha.current.symm.trans ha'.current)
    obtain ⟨_, hx⟩ := ha.request.subject
    obtain ⟨_, hx'⟩ := ha'.request.subject
    obtain rfl : round = round' := congrArg (·.view.round) (Except.ok.inj (hx.symm.trans hx'))
    exact hd
  cases h with
  | refuse => exact .inr rfl
  | consult => exact .inr rfl
  | answer _ hkind => exact hother hkind (by decide)
  | object hkind => exact hother hkind (by decide)
  | accept hp => exact hother hp.kind (by decide)
  | support hp => exact hother hp.kind (by decide)
  | countPrepare hc => exact hother hc.kind (by decide)
  | lock hc => exact hother hc.kind (by decide)
  | countCommit hc => exact hother hc.kind (by decide)
  | finalize hc => exact hother hc.kind (by decide)
  | release hc => exact hother hc.kind (by decide)
  | tally ha' hd' => exact absurd (hsame ha') hd'
  | join ha' hd' => exact absurd (hsame ha') hd'
  | enter => exact .inl (congrArg Replica.started (startRound_stopped (by exact hn) _))

/-- A replica that hears a message receives it. -/
theorem Moment.receives {m : Moment σ} {c : Message} (hh : m.heard = some c) :
    ∃ d ready, d.message = c ∧ m.after = ({ m.before with ready } : Replica σ).receive d := by
  obtain ⟨r, e⟩ := m
  unfold heard at hh
  split at hh
  · rename_i hstarted
    replace hstarted : r.started = true := hstarted
    cases e with
    | input i =>
      cases i with
      | message d =>
        exact ⟨d, r.ready, Option.some.inj hh, if_pos hstarted⟩
      | _ => cases hh
    | process =>
      cases hr : r.ready with
      | nil => simp [hr] at hh
      | cons d ready =>
        refine ⟨d, ready, by simpa [hr] using hh, ?_⟩
        simp only [after, react, advance, hstarted, hr, Option.getD_some]
    | _ => cases hh
  · cases hh

theorem Moment.ends {m : Moment σ} {c : Message} {view : View} {round : Round} (hh : m.heard = some c)
    (ha : m.before.position.Admits view round c) (hd : m.before.position.Decides view round c)
    (hn : next? m.before.position.head = none) :
    m.after.started = false ∨ m.after.position = m.before.position := by
  obtain ⟨d, ready, rfl, hafter⟩ := Moment.receives hh
  have hprocess := (process_treats { m.before with ready } d.message).ends ha hd hn
  have hkeep {s t : Replica σ} (hs : s.started = false ∨ s.position = m.before.position)
      (hstarted : t.started = s.started) (hquiet : Quiet s t) :
      t.started = false ∨ t.position = m.before.position :=
    hs.imp hstarted.trans hquiet.position.trans
  rw [hafter]
  refine receive_induction (P := fun s => s.started = false ∨ s.position = m.before.position)
    { m.before with ready } d hprocess (fun s hs => ?_) (fun s _ _ hs => ?_) fun s e hs => ?_
  · exact hkeep hs (relay_started s _) (relay_quiet s _)
  · exact hkeep hs (postpone_started s d) (postpone_quiet s d)
  · exact hkeep hs rfl (drop_quiet s _ e)

theorem Run.pending (hn : start.view? = none) (hr : Run start h r)
    (hg : ∀ m ∈ h, m.before.position.head ≤ m.after.position.head)
    (hgo : r.started = true ∨ next? r.position.head ≠ none) :
    ∀ view ∈ r.view?, r.position.Pending view := by
  induction hr with
  | nil => simp [hn]
  | @step h r e _ ih =>
    have hle := hg _ List.mem_cons_self
    have hbefore : r.started = true ∨ next? r.position.head ≠ none :=
      hgo.elim (fun hs => (react_runs hs).imp_right And.right) fun hn => .inr (next?_ne_none_of_le hle hn)
    have hp := ih (fun m hm => hg m (List.mem_cons_of_mem _ hm)) hbefore
    by_cases hroom : r.position.RoomFor (Moment.heard ⟨r, e⟩)
    · exact ((Moment.steps ⟨r, e⟩).pending hle hroom hp).2
    · -- at the last height the replica would have ended, and it runs
      simp only [RoomFor] at hroom
      push Not at hroom
      obtain ⟨view, round, c, hheard, ha, hd, hnone⟩ := hroom
      have hruns := hgo.resolve_right fun hn => next?_ne_none_of_le hle hn hnone
      rcases Moment.ends hheard ha hd hnone with hended | hsame
      · exact absurd (hruns.symm.trans hended) Bool.true_eq_false_eq_False
      · have hsame : (r.react e).position = r.position := hsame
        intro view hv
        rw [hsame]
        exact hp view ((congrArg Position.view hsame).symm.trans hv)

/-- A round above the first one is entered when valid requests for it from a quorum of distinct members
have been heard in its sequence. As long as the replica runs on a ledger whose head does not fall back,
less than a quorum has asked for any round that it could still enter. -/
theorem rounds_by_quorum {signer : Signer} {ledger : σ} {archive : Archive} {gossip : Gossip}
    {timer : Timer} {capacity : Nat}
    (hc : create signer ledger archive gossip timer capacity = .ok start) (hr : Run start h r) :
    (∀ later m earlier, h = later ++ m :: earlier → ∀ view ∈ m.entered, view.round ≠ 0 →
      ∃ c poll, m.heard = some c ∧ (m.before.roundChanges.poll view.round).add c = .ok poll ∧
        poll.size = m.before.committee.quorum ∧ poll.senders.Nodup ∧
        ∀ x ∈ poll.messages, x.Requests view ∧ x.sender ∈ m.before.committee.members ∧
          HeardAt (m :: earlier) x view.sequence) ∧
    ((∀ m ∈ h, (Ledger.head m.before.ledger).number ≤ (Ledger.head m.after.ledger).number) →
      r.started = true ∨ next? (Ledger.head r.ledger).number ≠ none →
      ∀ view ∈ r.view?, ∀ round, view.round < round ∨ r.waiting = true ∧ view.round = round →
        r.roundChanges.count round < r.committee.quorum) := by
  obtain ⟨-, -, -, -, -, hattempt, -⟩ := create_spec hc
  have hn : start.view? = none := by simp [view?, hattempt]
  refine ⟨?_, fun hg hgo view hv round hawaits => ?_⟩
  · rintro later m earlier rfl view hview h0
    obtain ⟨c, current, hheard, hseq, ha, hq⟩ := m.steps.decided hview h0
    have hcounted := (hr.until.counted hn current ha.current).mono
      fun _ _ => HeardAt.mono (List.subset_cons_self m earlier)
    have htold : HeardAt (m :: earlier) c current.sequence :=
      ⟨m, List.mem_cons_self, hheard, current, ha.current, rfl⟩
    obtain ⟨poll, hadd, hsize⟩ := RoundChanges.add_ok.mp hq.1
    obtain ⟨hmembers, hmessages⟩ := hcounted.add ha htold hadd
    refine ⟨c, poll, hheard, hadd, hsize, poll.distinct, fun x hx => ?_⟩
    obtain ⟨hrequest, hat⟩ := hmessages x hx
    rw [hseq] at hrequest hat
    exact ⟨hrequest, hmembers ▸ poll.authorized x hx, hat⟩
  · exact (hr.pending hn hg hgo view hv).poll round hawaits

end Replica

namespace Pair

open Replica

attribute [local instance] Scheme.plain

/-- Both validators ask for round 1, and the first one enters it. No quorum has asked for more. -/
theorem rounds_by_quorum_idle : ∃ start r, replica first = .ok start ∧
    Run start (start.moments idleEvents) r ∧ r.view? = some ⟨1, 1⟩ ∧
    (∃ m ∈ start.moments idleEvents, ⟨1, 1⟩ ∈ m.entered ∧
      ∃ c poll, m.heard = some c ∧ (m.before.roundChanges.poll 1).add c = .ok poll ∧
        poll.size = m.before.committee.quorum ∧ poll.senders.Nodup ∧
        ∀ x ∈ poll.messages, x.Requests ⟨1, 1⟩ ∧ x.sender ∈ m.before.committee.members ∧
          HeardAt (start.moments idleEvents) x 1) ∧
    ∀ round, 1 < round → r.roundChanges.count round < r.committee.quorum := by
  have hv : (replica first).toOption.any (fun start =>
      (idleEvents.foldl react start).view? = some ⟨1, 1⟩ ∧
      (∃ m ∈ start.moments idleEvents, ⟨1, 1⟩ ∈ m.entered) ∧
      (∀ m ∈ start.moments idleEvents,
        (Ledger.head m.before.ledger).number ≤ (Ledger.head m.after.ledger).number) ∧
      (idleEvents.foldl react start).started = true) := by decide +kernel
  cases hc : replica first with
  | error e =>
    rw [hc] at hv
    cases hv
  | ok start =>
    rw [hc] at hv
    obtain ⟨hview, ⟨m, hm, hentered⟩, hg, hstarted⟩ := of_decide_eq_true hv
    have hr := moments_run start idleEvents
    obtain ⟨hquorum, hbelow⟩ := rounds_by_quorum hc hr
    obtain ⟨later, earlier, hl⟩ := List.append_of_mem hm
    obtain ⟨c, poll, hheard, hadd, hsize, hn, hx⟩ :=
      hquorum later m earlier hl ⟨1, 1⟩ hentered (by decide)
    have hsub : m :: earlier ⊆ start.moments idleEvents := by simp [hl]
    refine ⟨start, _, rfl, hr, hview, ⟨m, hm, hentered, c, poll, hheard, hadd, hsize, hn, ?_⟩, ?_⟩
    · exact fun x hxm => ⟨(hx x hxm).1, (hx x hxm).2.1, (hx x hxm).2.2.mono hsub⟩
    · exact fun round hlt => hbelow hg (.inl hstarted) _ hview round (.inl hlt)

end Pair

end BlockAgreement
