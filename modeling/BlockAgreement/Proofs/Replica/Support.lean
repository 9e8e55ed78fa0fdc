import BlockAgreement.Proofs.Replica.Coherence

/-!
# The support for a proposal

Every Prepare that is counted is one for the accepted proposal in the current view. A replica whose
proposal is supported by a quorum has locked it, if the last supporter has sent a Prepare. A Commit does
not make it look at the supporters: it may take them to a quorum unnoticed, until one more Prepare is
counted.
-/

set_option autoImplicit false

namespace BlockAgreement

theorem Poll.size_eq_zero {p : Poll} (h : p.messages = []) : p.size = 0 := by
  simp [size, h]

namespace Attempt

theorem size_le_supporters (a : Attempt) : a.prepares.size ≤ a.supporters := Nat.le_add_right _ _

theorem supporters_congr {a b : Attempt} (hp : a.prepares = b.prepares) (hc : a.commits = b.commits) :
    a.supporters = b.supporters := by
  simp only [supporters, hp, hc]

theorem supporters_eq_zero {a : Attempt} (hp : a.prepares.messages = [])
    (hc : a.commits.messages = []) : a.supporters = 0 := by
  simp [supporters, Poll.size, Poll.senders, hp, hc]

end Attempt

/-- The message seconds the proposal of the subject in its view. -/
structure Message.Seconds [Scheme] (c : Message) (s : Subject) : Prop where
  kind : c.kind = .prepare
  verified : c.verify = .ok ()
  subject : c.subject = .ok s

namespace Stance

variable {σ : Type} [Scheme]

structure Backs (H : Message → Prop) (s : Stance σ) (a : Attempt) : Prop where
  blank : s.waiting = true ∨ s.phase = .newRound → a.prepares.messages = []
  committee : a.prepares.committee.members = s.committee.members
  counted : ∀ c ∈ a.prepares.messages, ∃ b, a.proposal = some b ∧ c.Seconds ⟨a.view, b.hash⟩ ∧ H c

def Seconded (H : Message → Prop) (s : Stance σ) : Prop := ∀ a ∈ s.attempt, s.Backs H a

variable {H : Message → Prop} {s t : Stance σ} {a b : Attempt}

theorem Seconded.mono {K : Message → Prop} (hk : ∀ c, H c → K c) (hs : s.Seconded H) :
    s.Seconded K := by
  intro a ha
  have hb := hs a ha
  refine ⟨hb.blank, hb.committee, fun c hc => ?_⟩
  obtain ⟨b, hp, hsec, hh⟩ := hb.counted c hc
  exact ⟨b, hp, hsec, hk c hh⟩

theorem backs_of_nil (hn : a.prepares.messages = [])
    (hc : a.prepares.committee.members = s.committee.members) : s.Backs H a :=
  ⟨fun _ => hn, hc, by simp [hn]⟩

theorem Backs.stay (hs : s.Backs H a) (hp : b.prepares = a.prepares)
    (hb : b.proposal = a.proposal) (hv : b.view = a.view) (hc : t.committee = s.committee)
    (ht : t.waiting = true ∨ t.phase = .newRound → s.waiting = true ∨ s.phase = .newRound) :
    t.Backs H b := by
  refine ⟨fun h => hp ▸ hs.blank (ht h), by rw [hp, hc]; exact hs.committee, fun c hm => ?_⟩
  rw [hp] at hm
  rw [hb, hv]
  exact hs.counted c hm

theorem Backs.count (hs : s.Backs H a) {x : Block} {m : Message} {prepares : Poll}
    {lock : Option Digest} (hc : s.Counts a x .prepare m) (hp : a.prepares.add m = .ok prepares)
    (hm : H m) (hw : t.waiting = false) (hn : t.phase ≠ .newRound) (ht : t.committee = s.committee) :
    t.Backs H { a with prepares, lock } := by
  obtain ⟨-, hcom, -, hmem⟩ := Poll.add_spec hp
  refine ⟨?_, ?_, fun c hmc => ?_⟩
  · rintro (h | h)
    · rw [hw] at h
      cases h
    · exact absurd h hn
  · show prepares.committee.members = _
    rw [hcom, ht]
    exact hs.committee
  · rcases hmem c hmc with hmc | rfl
    · exact hs.counted c hmc
    · exact ⟨x, hc.proposal, ⟨hc.kind, hc.verified, hc.subject⟩, hm⟩

variable [Ledger σ] {origin : Stance σ} {heard : Option Message} {es : List Effect}

theorem Move.seconded (h : Move origin heard s es t) (hh : ∀ m ∈ heard, H m)
    (hs : s.Seconded H) : t.Seconded H := by
  cases h with
  | consult number hash => exact fun a ha => (hs a ha).stay rfl rfl rfl rfl id
  | request b ha hb =>
    rintro c ⟨⟩
    exact (hs _ ha).stay rfl rfl rfl rfl id
  | propose ha hb hp hn hr => exact hs
  | ask ha hr =>
    rintro c ⟨⟩
    exact backs_of_nil rfl rfl
  | enterSequence hn ha =>
    rintro c ⟨⟩
    exact backs_of_nil rfl rfl
  | enterRound ha hn h0 hr hw =>
    rintro c ⟨⟩
    exact backs_of_nil rfl rfl
  | accept hm hp hl =>
    rintro c ⟨⟩
    have hb := hs _ hp.attempt
    exact backs_of_nil (hb.blank (.inr hp.fresh)) hb.committee
  | support hm hp hl =>
    rintro c ⟨⟩
    have hb := hs _ hp.attempt
    exact backs_of_nil (hb.blank (.inr hp.fresh)) hb.committee
  | answer hm hc ha hk hp hv hh hn => exact fun a ha => (hs a ha).stay rfl rfl rfl rfl id
  | countPrepare hm hc hp =>
    rintro c ⟨⟩
    exact (hs _ hc.attempt).count hc hp (hh _ hm) hc.active hc.proposed rfl
  | lock hm hc hp hq hn =>
    rintro c ⟨⟩
    exact (hs _ hc.attempt).count hc hp (hh _ hm) hc.active (by simp) rfl
  | countCommit hm hc hseal hp =>
    rintro c ⟨⟩
    exact (hs _ hc.attempt).stay rfl rfl rfl rfl id
  | finalize hm hc hseal hp hq hn hl =>
    rintro c ⟨⟩
    exact (hs _ hc.attempt).stay rfl rfl rfl rfl (Or.imp_right fun h => by cases h)
  | refuse hm hc hseal hp hq hn hl =>
    rintro c ⟨⟩
    exact (hs _ hc.attempt).stay rfl rfl rfl rfl (Or.imp_right fun h => by cases h)

structure Carries (origin s : Stance σ) (o a : Attempt) : Prop where
  attempt : origin.attempt = some o
  active : origin.waiting = false
  phase : origin.phase = .preprepared
  view : o.view = a.view
  committee : s.committee = origin.committee

omit [Scheme] [Ledger σ] in
theorem Carries.of_eq {o : Attempt} (h : Carries origin s o a) (hv : b.view = a.view)
    (hc : t.committee = s.committee) : Carries origin t o b :=
  { h with view := h.view.trans hv.symm, committee := hc.trans h.committee }

inductive Support (origin : Stance σ) (heard : Option Message) (s : Stance σ) (a : Attempt) : Prop where
  | fresh (hp : a.prepares.messages = []) (hc : a.commits.messages = [])
  | same {o : Attempt} (ho : Carries origin s o a) (hp : a.prepares = o.prepares)
      (hc : a.commits = o.commits)
  | prepare {o : Attempt} (ho : Carries origin s o a) (hc : a.commits = o.commits)
      (hn : a.supporters < s.committee.quorum)
  | commit {o : Attempt} {m : Message} (ho : Carries origin s o a) (hp : a.prepares = o.prepares)
      (hm : heard = some m) (hk : m.kind = .commit) (hn : a.commits.size < s.committee.quorum)

omit [Scheme] [Ledger σ] in
theorem Support.stay (hs : Support origin heard s a) (hv : b.view = a.view)
    (hp : b.prepares = a.prepares) (hc : b.commits = a.commits) (ht : t.committee = s.committee) :
    Support origin heard t b := by
  cases hs with
  | fresh hp' hc' => exact .fresh (hp ▸ hp') (hc ▸ hc')
  | same ho hp' hc' => exact .same (ho.of_eq hv ht) (hp.trans hp') (hc.trans hc')
  | prepare ho hc' hn =>
    refine .prepare (ho.of_eq hv ht) (hc.trans hc') ?_
    rw [Attempt.supporters_congr hp hc, ht]
    exact hn
  | commit ho hp' hm hk hn =>
    exact .commit (ho.of_eq hv ht) (hp.trans hp') hm hk (by rw [hc, ht]; exact hn)

def Supported (origin : Stance σ) (heard : Option Message) (s : Stance σ) : Prop :=
  s.waiting = false → s.phase = .preprepared → ∀ a ∈ s.attempt, Support origin heard s a

omit [Scheme] [Ledger σ] in
theorem Supported.refl (s : Stance σ) : Supported s heard s :=
  fun hw hp _ ha => .same ⟨ha, hw, hp, rfl, rfl⟩ rfl rfl

theorem Move.supported (h : Move origin heard s es t) (ho : origin.Seconded H)
    (hf : origin.Coherent H) (hs : Supported origin heard s) : Supported origin heard t := by
  intro hw hp c hc
  cases h with
  | consult number hash => exact (hs hw hp c hc).stay rfl rfl rfl rfl
  | request b ha hb =>
    obtain rfl := Option.some.inj hc
    exact (hs hw hp _ ha).stay rfl rfl rfl rfl
  | propose ha hb hpr hn hr => exact hs hw hp c hc
  | ask ha hr => cases hw
  | enterSequence hn ha => cases hp
  | enterRound ha hn h0 hr hwait => cases hp
  | accept hm hprop hl =>
    obtain rfl := Option.some.inj hc
    exact .fresh ((ho _ hprop.attempt).blank (.inr hprop.fresh))
      ((hf _ hprop.attempt).blank (.inr hprop.fresh))
  | support hm hprop hl => cases hp
  | answer hm hadm ha hk hpre hv hh hn => exact (hs hw hp c hc).stay rfl rfl rfl rfl
  | countPrepare hm hcount hadd hn =>
    obtain rfl := Option.some.inj hc
    have hlt : s.phase < .prepared := by rw [show s.phase = _ from hp]; decide
    exact .prepare ⟨hcount.attempt, hw, hp, rfl, rfl⟩ rfl
      (Nat.lt_of_not_le fun hq => hn ⟨.inr hq, hlt⟩)
  | lock hm hcount hadd hq hn => cases hp
  | countCommit hm hcount hseal hadd hn =>
    obtain rfl := Option.some.inj hc
    have hlt : s.phase < .committed := by rw [show s.phase = _ from hp]; decide
    exact .commit ⟨hcount.attempt, hw, hp, rfl, rfl⟩ rfl hm hcount.kind
      (Nat.lt_of_not_le fun hq => hn ⟨hq, hlt⟩)
  | finalize hm hcount hseal hadd hq hn hl => cases hp
  | refuse hm hcount hseal hadd hq hn hl => cases hp

def Announced (origin s : Stance σ) (log : List Effect) : Prop :=
  s.waiting = false → s.phase = .prepared → ∃ a b, s.attempt = some a ∧ a.proposal = some b ∧
    a.lock = some b.hash ∧
      ∀ c ∈ Message.commit origin.signer ⟨a.view, b.hash⟩, .broadcast c ∈ log

theorem Move.announced (h : Move origin heard s es t) (ho : origin.phase = .preprepared)
    {log : List Effect} (hs : Announced origin s log) : Announced origin t (es ++ log) := by
  intro hw hp
  cases h with
  | consult number hash => exact hs hw hp
  | request x ha hb =>
    obtain ⟨a, b, ha', hprop, hl, hsay⟩ := hs hw hp
    obtain rfl := Option.some.inj (ha.symm.trans ha')
    exact ⟨_, b, rfl, hprop, hl, hsay⟩
  | propose ha hb hpr hn hr =>
    obtain ⟨a, b, ha, hprop, hl, hsay⟩ := hs hw hp
    exact ⟨a, b, ha, hprop, hl, fun c hc => List.mem_append_right _ (hsay c hc)⟩
  | ask ha hr => cases hw
  | enterSequence hn ha => cases hp
  | enterRound ha hn h0 hr hwait => cases hp
  | accept hm hprop hl => cases hp
  | support hm hprop hl =>
    rw [hprop.fresh] at ho
    cases ho
  | answer hm hadm ha hk hpre hv hh hn =>
    rw [show origin.phase = _ from ho] at hp
    cases hp
  | countPrepare hm hcount hadd hn =>
    rw [show s.phase = _ from ho] at hp
    cases hp
  | lock hm hcount hadd hq hn =>
    refine ⟨_, _, rfl, hcount.proposal, rfl, fun c hc => List.mem_append_left _ ?_⟩
    rw [Option.mem_def.mp hc]
    exact List.mem_cons_self
  | countCommit hm hcount hseal hadd hn =>
    rw [show s.phase = _ from ho] at hp
    cases hp
  | finalize hm hcount hseal hadd hq hn hl => cases hp
  | refuse hm hcount hseal hadd hq hn hl => cases hp

end Stance

namespace Replica

open Stance

variable {σ : Type} [Scheme] [Ledger σ] {start r : Replica σ} {h : List (Moment σ)}

theorem Run.seconded (hr : Run start h r) (hs : start.attempt = none) :
    r.stance.Seconded (Heard h) := by
  refine hr.follow (P := fun h s => s.Seconded (Heard h)) (fun a ha => ?_)
    (fun hb => hb.mono fun c hc => hc.cons _) (fun l hb a ha => (hb a ha).stay rfl rfl rfl rfl id)
    fun _ hm hb => hm.seconded (fun c hc => heard_cons_self hc) hb
  rw [show start.stance.attempt = none from hs] at ha
  cases ha

structure Moment.Overtakes (m : Moment σ) (a : Attempt) : Prop where
  heard : ∃ c, m.heard = some c ∧ c.kind = .commit
  before : ∃ o, m.before.attempt = some o ∧ o.view = a.view ∧ o.prepares = a.prepares ∧
    o.supporters < m.before.committee.quorum
  after : ∃ o, m.after.attempt = some o ∧ o.view = a.view ∧ o.prepares = a.prepares ∧
    m.after.committee.quorum ≤ o.supporters

theorem Moment.Overtakes.congr {m : Moment σ} {a b : Attempt} (h : m.Overtakes a)
    (hv : a.view = b.view) (hp : a.prepares = b.prepares) : m.Overtakes b :=
  { h with before := hv ▸ hp ▸ h.before, after := hv ▸ hp ▸ h.after }

/-- The support for a proposal that is not locked. -/
structure Wanting (h : List (Moment σ)) (r : Replica σ) (a : Attempt) : Prop where
  prepares : a.prepares.size < r.committee.quorum
  commits : a.commits.size < r.committee.quorum
  supporters : r.committee.quorum ≤ a.supporters → ∃ m ∈ h, m.Overtakes a

omit [Scheme] [Ledger σ] in
theorem quorum_pos (r : Replica σ) : 0 < r.committee.quorum := Nat.succ_pos _

theorem Run.wanting (hr : Run start h r) (hs : start.attempt = none) (hw : r.waiting = false)
    (hp : r.phase = .preprepared) {a : Attempt} (ha : r.attempt = some a) : Wanting h r a := by
  induction hr generalizing a with
  | nil =>
    rw [hs] at ha
    cases ha
  | @step h r e hr ih =>
    have hlift {o : Attempt} : (∃ m ∈ h, m.Overtakes o) → ∃ m ∈ (⟨r, e⟩ :: h), m.Overtakes o :=
      fun ⟨m, hm, ho⟩ => ⟨m, List.mem_cons_of_mem _ hm, ho⟩
    by_cases he : ∃ l, e = .replace l
    · obtain ⟨l, rfl⟩ := he
      have ih := ih hw hp ha
      exact ⟨ih.prepares, ih.commits, fun hq => hlift (ih.supporters hq)⟩
    · obtain ⟨-, hm, -⟩ := Moment.moves (m := ⟨r, e⟩) (by simpa using he)
      have hsup : Supported r.stance (Moment.heard ⟨r, e⟩) (r.react e).stance :=
        hm.preserve (E := fun _ => True) (P := fun s _ => Supported _ _ s) []
          (fun hmove _ _ => hmove.supported (hr.seconded hs) (hr.coherent hs)) (by simp) (.refl _)
      cases hsup hw hp a ha with
      | fresh hprep hcom =>
        refine ⟨?_, ?_, fun hq => absurd hq ?_⟩
        · exact Poll.size_eq_zero hprep ▸ quorum_pos _
        · exact Poll.size_eq_zero hcom ▸ quorum_pos _
        · rw [Attempt.supporters_eq_zero hprep hcom]
          exact Nat.not_le_of_lt (quorum_pos _)
      | @same o ho hprep hcom =>
        have hc : (r.react e).committee = r.committee := ho.committee
        have ih := ih ho.active ho.phase ho.attempt
        refine ⟨by rw [hprep, hc]; exact ih.prepares, by rw [hcom, hc]; exact ih.commits, fun hq => ?_⟩
        rw [Attempt.supporters_congr hprep hcom, hc] at hq
        exact hlift ((ih.supporters hq).imp fun m hm => ⟨hm.1, hm.2.congr ho.view hprep.symm⟩)
      | @prepare o ho hcom hn =>
        have hc : (r.react e).committee = r.committee := ho.committee
        have ih := ih ho.active ho.phase ho.attempt
        refine ⟨Nat.lt_of_le_of_lt a.size_le_supporters hn, by rw [hcom, hc]; exact ih.commits,
          fun hq => absurd hq (Nat.not_le_of_lt hn)⟩
      | @commit o m ho hprep hm hk hn =>
        have hc : (r.react e).committee = r.committee := ho.committee
        have ih := ih ho.active ho.phase ho.attempt
        refine ⟨by rw [hprep, hc]; exact ih.prepares, hn, fun hq => ?_⟩
        -- either this Commit overtakes the Prepares, or an earlier one has done so
        by_cases hbelow : o.supporters < r.committee.quorum
        · exact ⟨_, List.mem_cons_self, ⟨m, hm, hk⟩, ⟨o, ho.attempt, ho.view, hprep.symm, hbelow⟩,
            ⟨a, ha, rfl, rfl, hq⟩⟩
        · exact hlift ((ih.supporters (Nat.le_of_not_lt hbelow)).imp fun m hm =>
            ⟨hm.1, hm.2.congr ho.view hprep.symm⟩)

/-- A replica that goes from one phase to the next commits itself to the proposal that it has locked. -/
theorem Moment.announced (m : Moment σ) (hb : m.before.phase = .preprepared)
    (hp : m.after.phase = .prepared) (hw : m.after.waiting = false) :
    ∃ a b, m.after.attempt = some a ∧ a.proposal = some b ∧ a.lock = some b.hash ∧
      ∀ c ∈ Message.commit m.before.signer ⟨a.view, b.hash⟩, c ∈ m.signed := by
  have he : ∀ l, m.event ≠ .replace l := by
    intro l he
    have hphase : m.after.phase = m.before.phase := congrArg Stance.phase (Moment.replaced he).2.1
    rw [hb, hp] at hphase
    cases hphase
  obtain ⟨-, hm, -⟩ := Moment.moves he
  have hstart : Announced m.before.stance m.before.stance [] := fun _ hp => by
    rw [show m.before.stance.phase = _ from hb] at hp
    cases hp
  obtain ⟨a, b, ha, hprop, hl, hsay⟩ := hm.preserve (E := fun _ => True)
    (P := fun s log => Announced _ s log) [] (fun hmove _ _ => hmove.announced hb) (by simp) hstart
    hw hp
  refine ⟨a, b, ha, hprop, hl, fun c hc => ?_⟩
  have hc := hsay c hc
  rw [List.append_nil] at hc
  exact List.mem_filterMap.mpr ⟨_, (List.mem_filter.mp hc).1, rfl⟩

/-- Between two inputs a replica whose proposal is not locked has counted less than a quorum of Prepares
and less than a quorum of Commits. Together they come from less than a quorum of members too, unless the
last one was a Commit and no Prepare has been counted since. A replica that locks its proposal commits
itself to it. -/
theorem prepares_are_used (hs : start.attempt = none) (hr : Run start h r) :
    (∀ a, r.attempt = some a → r.waiting = false → r.phase = .preprepared → Wanting h r a) ∧
    ∀ m ∈ h, m.before.phase = .preprepared → m.after.phase = .prepared → m.after.waiting = false →
      ∃ a b, m.after.attempt = some a ∧ a.proposal = some b ∧ a.lock = some b.hash ∧
        ∀ c ∈ Message.commit m.before.signer ⟨a.view, b.hash⟩, c ∈ m.signed :=
  ⟨fun _ ha hw hp => hr.wanting hs hw hp ha, fun m _ => m.announced⟩

end Replica

namespace Pair

open Replica

attribute [local instance] Scheme.plain

/-- Up to the second validator's Prepare, the first one's own has been counted. -/
theorem prepares_are_used_first : ∃ start, replica first = .ok start ∧ start.attempt = none ∧
    let events := firstEvents.take 4
    (events.foldl react start).phase = .preprepared ∧
      ∃ a, (events.foldl react start).attempt = some a ∧
        Wanting (start.moments events) (events.foldl react start) a := by
  obtain ⟨start, hstart, hn, hw, hp, hsome⟩ := exists_replica (k := first)
    (P := fun start => start.attempt = none ∧
      ((firstEvents.take 4).foldl react start).waiting = false ∧
      ((firstEvents.take 4).foldl react start).phase = .preprepared ∧
      ((firstEvents.take 4).foldl react start).attempt.isSome) (by decide +kernel)
  obtain ⟨a, ha⟩ := Option.isSome_iff_exists.mp hsome
  exact ⟨start, hstart, hn, hp, a, ha, (prepares_are_used hn (moments_run _ _)).1 a ha hw hp⟩

def overtakenEvents : List (Event MemoryLedger) :=
  firstEvents.take 4 ++ hear (Message.commit second subject)

/-- Both validators support the proposal, which is a quorum, but neither does the first one lock it nor
is anything left that would make it do so. -/
theorem prepares_unused_overtaken : ∃ start, replica first = .ok start ∧
    let r := overtakenEvents.foldl react start
    r.started = true ∧ r.waiting = false ∧ r.phase = .preprepared ∧ r.ready = [] ∧
      ∃ a, r.attempt = some a ∧ r.committee.quorum ≤ a.supporters := by
  obtain ⟨start, hstart, hr, hw, hp, hready, hq⟩ := exists_replica (k := first)
    (P := fun start => (overtakenEvents.foldl react start).started = true ∧
      (overtakenEvents.foldl react start).waiting = false ∧
      (overtakenEvents.foldl react start).phase = .preprepared ∧
      (overtakenEvents.foldl react start).ready = [] ∧
      (overtakenEvents.foldl react start).attempt.any
        (fun a => (overtakenEvents.foldl react start).committee.quorum ≤ a.supporters) = true)
    (by decide +kernel)
  obtain ⟨a, ha, hq⟩ := (Option.any_eq_true _ _).mp hq
  exact ⟨start, hstart, hr, hw, hp, hready, a, ha, of_decide_eq_true hq⟩

end Pair

end BlockAgreement
