import BlockAgreement.Proofs.Replica.Duties
import BlockAgreement.Proofs.Replica.Following

/-!
# A replica counts its own vote

What a replica says it does not count at once: it has to process it like any other message, behind all
that is ready already. Until then the vote that it owes waits to be processed. When its turn comes it is
counted, unless the replica goes on by it, and then it owes something else.
-/

set_option autoImplicit false

namespace BlockAgreement

namespace RoundChanges

theorem senders_subset_add (rc : RoundChanges) (round other : Round) (m : Message) :
    (rc.poll other).senders ⊆ ((rc.add round m).2.poll other).senders := by
  rw [poll_add]
  split
  · rename_i hround
    subst hround
    cases hp : (rc.poll round).add m with
    | ok p => exact (Poll.senders_add hp).2
    | error e => exact List.Subset.refl _
  · exact List.Subset.refl _

theorem add_member {rc : RoundChanges} {round : Round} {m : Message}
    (hm : m.sender ∈ (rc.poll round).committee.members) :
    ∃ n, (rc.add round m).1 = .ok n ∧ m.sender ∈ ((rc.add round m).2.poll round).senders := by
  obtain ⟨p, hp, -, hs, -⟩ := Poll.add_member hm
  refine ⟨p.size, add_ok.mpr ⟨p, hp, rfl⟩, ?_⟩
  rw [poll_add, if_pos rfl, hp]
  exact hs

end RoundChanges

namespace Replica

open Stance

variable {σ : Type} {r s : Replica σ} {d : Delivery} {c : Message} {view : View}

def poll? (r : Replica σ) : MessageKind → Option Poll
  | .preprepare => none
  | .prepare => r.attempt.map (·.prepares)
  | .commit => r.attempt.map (·.commits)
  | .roundChange => r.view?.map fun view => r.roundChanges.poll view.round

def Registers (r : Replica σ) (c : Message) : Prop := ∃ p, r.poll? c.kind = some p ∧ c.sender ∈ p.senders

def Seats (r : Replica σ) : Prop :=
  ∀ kind, ∀ p ∈ r.poll? kind, p.committee.members = r.committee.members

variable [Scheme] [Ledger σ]

omit [Ledger σ] in
theorem view_of_owes (h : r.stance.Owes c) : ∃ x, c.subject = .ok x ∧ r.view? = some x.view := by
  obtain ⟨a, x, ha, hx, hv⟩ := h.subject
  exact ⟨x, hx, hv ▸ view?_of_attempt ha⟩

omit [Ledger σ] in
theorem progress_of_owes (hr : r.stance.Owes c) (hs : s.stance.Owes c) : r.progress = s.progress := by
  obtain ⟨x, hx, hrx⟩ := view_of_owes hr
  obtain ⟨y, hy, hsy⟩ := view_of_owes hs
  obtain rfl := Except.ok.inj (hx.symm.trans hy)
  have hstage : (if r.waiting then 0 else r.phase.rank + 1) = if s.waiting then 0 else s.phase.rank + 1 :=
    hr.stage.trans hs.stage.symm
  rw [progress_eq hrx, progress_eq hsy, hstage]

theorem Shift.requests {heard : Option Message} (h : Shift heard r s)
    (hv : r.view? = some view) (hw : s.waiting = true) (hs : s.view? = some view) :
    (r.roundChanges.poll view.round).senders ⊆ (s.roundChanges.poll view.round).senders := by
  have hkeep {rc : RoundChanges} (hs : s.roundChanges = rc)
      (hr : (r.roundChanges.poll view.round).senders ⊆ (rc.poll view.round).senders) :
      (r.roundChanges.poll view.round).senders ⊆ (s.roundChanges.poll view.round).senders := hs ▸ hr
  -- a replica that begins to wait is in a higher round then
  have hhigher {u : View} {round : Round} {rc : RoundChanges} {own : List Message} (hu : r.view? = some u)
      (hlt : u.round < round)
      (hk : Keeps ({ r with roundChanges := rc }.catchUp ⟨u.sequence, round⟩) s own) :
      (r.roundChanges.poll view.round).senders ⊆ (s.roundChanges.poll view.round).senders := by
    obtain rfl := Option.some.inj (hv.symm.trans hu)
    have hround := Option.some.inj (hs.symm.trans (hk.view.trans (catchUp_view _ _)))
    rw [hround] at hlt
    exact absurd hlt (UInt64.lt_irrefl _)
  cases h with
  | stay hk => exact hkeep hk.roundChanges (List.Subset.refl _)
  | store _ _ hk => exact hkeep hk.roundChanges (List.Subset.refl _)
  | adopt hk => exact hkeep hk.roundChanges (List.Subset.refl _)
  | count _ _ _ hk => exact hkeep hk.roundChanges (RoundChanges.senders_subset_add _ _ _ _)
  | ask _ hu hr hk => exact hhigher hu (lt_of_next? hr) hk
  | join _ ha hj hk => exact hhigher ha.current hj.above hk
  | follow _ _ hu hr _ hk => exact hhigher hu hr hk
  | enter _ _ _ _ _ hk =>
    rw [hk.waiting] at hw
    cases hw
  | leave hl =>
    rw [hl.active] at hw
    cases hw

theorem Registers.retain {heard : Option Message} (h : r.Registers c) (hr : r.stance.Owes c)
    (hs : s.stance.Owes c) (hk : Retains r.stance s.stance) (hshift : Shift heard r s) :
    s.Registers c := by
  obtain ⟨p, hp, hc⟩ := h
  obtain ⟨x, hx, hv⟩ := view_of_owes hr
  obtain ⟨y, hy, hv'⟩ := view_of_owes hs
  obtain rfl := Except.ok.inj (hx.symm.trans hy)
  cases hs with
  | request _ hw _ hs =>
    have hkind := (Message.roundChange_spec hs).1
    simp only [hkind, poll?, hv, Option.map_some, Option.some.injEq] at hp
    subst hp
    exact ⟨_, by simp only [hkind, poll?, hv', Option.map_some], hshift.requests hv hw hv' hc⟩
  | prepare hb _ _ _ hs =>
    have hkind := (Message.prepare_spec hs).1
    rw [hkind] at hp
    obtain ⟨a, ha, rfl⟩ := Option.map_eq_some_iff.mp hp
    exact ⟨_, by rw [hkind]; exact Option.map_eq_some_iff.mpr ⟨_, hb, rfl⟩, hk.prepares a ha _ hb hc⟩
  | commit hb _ _ _ hs =>
    have hkind := (Message.commit_spec hs).1
    rw [hkind] at hp
    obtain ⟨a, ha, rfl⟩ := Option.map_eq_some_iff.mp hp
    exact ⟨_, by rw [hkind]; exact Option.map_eq_some_iff.mpr ⟨_, hb, rfl⟩, hk.commits a ha _ hb hc⟩

section Handlers

variable {a b : Attempt} {x : Block}

omit [Ledger σ] in
theorem handlePrepare_registers (hs : r.Seats) (hm : c.sender ∈ r.committee.members)
    (ha : r.attempt = some a) (hx : a.proposal = some x) (hw : r.waiting = false)
    (hp : r.phase = .preprepared) (hk : c.kind = .prepare) (hc : c.subject = .ok ⟨a.view, x.hash⟩) :
    (r.handlePrepare c).2.Registers c ∨ r.progress < (r.handlePrepare c).2.progress := by
  have hcheck := checkSubject_eq ha hx hw (by simp [hp]) (by simp [hk]) hc
  have hseat : a.prepares.committee.members = r.committee.members := hs .prepare _ (by simp [poll?, ha])
  obtain ⟨prepares, hadd, -, hsender, -⟩ := Poll.add_member (p := a.prepares) (m := c) (hseat ▸ hm)
  have hprepared : r.phase < .prepared := by
    rw [hp]
    decide
  simp only [handlePrepare, hcheck, ha, hadd, lockAndCommit]
  rw [locked_eq (a := { a with prepares }) (b := x) hx]
  split
  · have hlocked := voting_rises r.archive (b := { a with prepares, lock := some x.hash }) ha rfl hw
      hprepared (sendCommit_speaks _)
    exact .inr hlocked.progress
  · exact .inl ⟨prepares, by simp [poll?, hk], hsender⟩

theorem handleCommit_registers (hs : r.Seats) (hm : c.sender ∈ r.committee.members)
    (ha : r.attempt = some a) (hx : a.proposal = some x) (hw : r.waiting = false)
    (hp : r.phase = .prepared) (hk : c.kind = .commit) (hc : c.subject = .ok ⟨a.view, x.hash⟩)
    (hseal : c.verifyCommittedSeal x.hash = .ok ()) :
    (r.handleCommit c).2.Registers c ∨ r.progress < (r.handleCommit c).2.progress := by
  have hcheck := checkSubject_eq ha hx hw (by simp [hp]) (by simp [hk]) hc
  have hseat : a.commits.committee.members = r.committee.members := hs .commit _ (by simp [poll?, ha])
  obtain ⟨commits, hadd, -, hsender, -⟩ := Poll.add_member (p := a.commits) (m := c) (hseat ▸ hm)
  have hcommitted : r.phase < .committed := by
    rw [hp]
    decide
  simp only [handleCommit, hcheck, ha, hseal, hadd]
  rw [locked_eq (a := { a with commits }) (b := x) hx]
  split
  · rw [commit_eq (a := { a with commits }) hx]
    right
    split
    · exact (released_outcome (b := { a with commits }) ha rfl hw hcommitted).1
    · exact (finalized_outcome (b := { a with commits }) ha rfl hw hcommitted).1
  · exact .inl ⟨commits, by simp [poll?, hk], hsender⟩

theorem handleRoundChange_registers (hs : r.Seats) (hm : c.sender ∈ r.committee.members)
    (hv : r.view? = some view) (hw : r.waiting = true) (hn : next? view.round ≠ none)
    (hk : c.kind = .roundChange) (hc : c.subject = .ok ⟨view, 0⟩) :
    (r.handleRoundChange c).2.Registers c ∨ r.progress < (r.handleRoundChange c).2.progress := by
  have hcheck : r.checkMessage .roundChange view = .ok () := by
    simp [checkMessage, hv, checkView, View.lt_irrefl, UInt64.lt_irrefl]
  have hseat : (r.roundChanges.poll view.round).committee.members = r.committee.members :=
    hs .roundChange _ (by simp [poll?, hv])
  have hmember : c.sender ∈ (r.roundChanges.poll view.round).committee.members := hseat ▸ hm
  obtain ⟨n, hadd, hsender⟩ := RoundChanges.add_member hmember
  have hpair : r.roundChanges.add view.round c = (.ok n, (r.roundChanges.add view.round c).2) :=
    Prod.ext hadd rfl
  have hcounted :
      ({ r with roundChanges := (r.roundChanges.add view.round c).2 } : Replica σ).Registers c :=
    ⟨_, by rw [hk]; exact congrArg (Option.map _) hv, hsender⟩
  simp only [handleRoundChange, hc, hv, hcheck, Option.isNone_iff_eq_none, if_neg hn]
  rw [hpair]
  dsimp only
  split
  · rcases startRound_or (r := { r with roundChanges := (r.roundChanges.add view.round c).2 }) hn
      (.inr (.inl hw)) with (he | he) | h
    · rw [he]
      exact .inl hcounted
    · rw [he]
      exact .inl hcounted
    · exact .inr h.progress
  · split
    · rcases sendRoundChange_or { r with roundChanges := (r.roundChanges.add view.round c).2 }
        view.round with he | h
      · rw [he]
        exact .inl hcounted
      · exact .inr h.progress
    · split <;> exact .inl hcounted

theorem receive_registers (hs : r.Seats) (hk : r.signer.Honest)
    (hm : r.signer.address ∈ r.committee.members) (ho : r.stance.Owes d.message) :
    (r.receive d).Registers d.message ∨ r.progress < (r.receive d).progress := by
  obtain ⟨hverified, hsender⟩ := ho.signed hk
  have hsender : d.message.sender = r.signer.address := hsender
  have hmember : d.message.sender ∈ r.committee.members := hsender ▸ hm
  obtain ⟨effects, heq⟩ := receive_own hsender
  rw [heq]
  show (r.process d.message).2.Registers d.message ∨ r.progress < (r.process d.message).2.progress
  rw [process_eq hverified hmember]
  cases ho with
  | request ha hw hn hc =>
    obtain ⟨hkind, hsub, -⟩ := Message.roundChange_spec hc
    rw [hkind]
    exact handleRoundChange_registers hs hmember (view?_of_attempt ha) hw hn hkind hsub
  | prepare ha hx hw hp hc =>
    obtain ⟨hkind, hsub⟩ := Message.prepare_spec hc
    rw [hkind]
    exact handlePrepare_registers hs hmember ha hx hw hp hkind hsub
  | commit ha hx hw hp hc =>
    obtain ⟨hkind, hsub, -⟩ := Message.commit_spec hc
    have hvote := Message.votesFor_commit hk hm hc
    rw [hkind]
    refine handleCommit_registers hs hmember ha hx hw hp hkind hsub ?_
    rcases hvote.kind with h | ⟨-, hseal⟩
    · rw [hkind] at h
      cases h
    · exact hseal

end Handlers

section Moments

variable {m : Moment σ}

/-- What a replica says becomes ready, behind everything that is ready. Only what is ready first is taken
up. -/
theorem Moment.spoken (m : Moment σ) (hstop : m.event = .stop → m.before.ready = []) :
    ∃ q own n, Says q m.after own n ∧ q.effects = m.before.effects ∧
      (q.agenda = m.before.agenda ∨ ∃ d ready, m.before.ready = d :: ready ∧
        q = { m.before with ready } ∧ m.after = q.receive d) := by
  obtain ⟨r, e⟩ := m
  by_cases he : ∃ b, e = .input (.request b)
  · obtain ⟨b, rfl⟩ := he
    obtain ⟨own, hoffers, -⟩ := request_offers r b
    exact ⟨r, own, 2, hoffers.toSays, rfl, .inl rfl⟩
  · obtain ⟨q, -, -, heff, hout, hq⟩ := react_outcome r (by simpa using he)
    obtain ⟨own, hsends⟩ := hout.sends (by decide)
    refine ⟨q, own, 4, hsends.toSays, heff, ?_⟩
    rcases hq with hq | ⟨rfl, hq⟩ | hfirst
    · exact .inl hq.symm
    · have hready : r.ready = [] := hstop rfl
      exact .inl (by rw [hq, agenda, hready, List.map_nil])
    · exact .inr hfirst

/-- What a replica owes after a moment it has said then, or it has owed it before. -/
theorem Moment.owes (ho : m.after.stance.Owes c) : .broadcast c ∈ m.shown ∨
    m.before.stance.Owes c ∧ Retains m.before.stance m.after.stance := by
  by_cases he : ∃ l, m.event = .replace l
  · obtain ⟨l, he⟩ := he
    obtain ⟨-, hst, -⟩ := Moment.replaced he
    rw [hst] at ho ⊢
    exact .inr ⟨ho.of_eq rfl rfl rfl fun b hb => ⟨b, hb, rfl, rfl⟩, retains_of_eq rfl rfl rfl⟩
  · obtain ⟨-, hm, -⟩ := Moment.moves (m := m) (by simpa using he)
    exact (hm.owes ho).imp_left fun h => (List.mem_filter.mp h).1

def Accounts (r : Replica σ) : Prop :=
  r.signer.address ∈ r.committee.members → ∀ c, r.stance.Owes c → r.Registers c ∨ c ∈ r.agenda

theorem Moment.accounts (hk : m.before.signer.Honest) (hs : m.before.Seats)
    (hstop : m.event = .stop → m.before.ready = []) (h : m.before.Accounts) : m.after.Accounts := by
  intro hm c ho
  obtain ⟨q, own, n, hspoken, heff, hq⟩ := m.spoken hstop
  rcases Moment.owes ho with hshown | ⟨hbefore, hretains⟩
  · obtain ⟨new, hnew, rfl⟩ := hspoken.shown
    rw [heff] at hnew
    rw [shown_of_leads hnew] at hshown
    exact .inr (hspoken.taken c (List.mem_filterMap.mpr ⟨_, hshown, rfl⟩))
  · have hm : m.before.signer.address ∈ m.before.committee.members := by
      have hsigner : m.after.signer = m.before.signer := hretains.signer
      have hcommittee : m.after.committee = m.before.committee := hretains.committee
      rwa [hsigner, hcommittee] at hm
    rcases h hm c hbefore with hcounted | hready
    · exact .inl (hcounted.retain hbefore ho hretains (react_shift _ _))
    · rcases hq with hq | ⟨d, ready, hfirst, rfl, hafter⟩
      · exact .inr (hspoken.agenda.subset (hq ▸ hready))
      · rw [agenda, hfirst] at hready
        rcases List.mem_cons.mp hready with rfl | hready
        · rcases receive_registers (r := { m.before with ready }) hs hk hm hbefore with hcounted | hlt
          · exact .inl (hafter ▸ hcounted)
          · -- the replica would not owe the same vote at a later stage
            rw [← hafter] at hlt
            exact absurd hlt (progress_of_owes hbefore ho).not_lt
        · exact .inr (hspoken.agenda.subset hready)

end Moments

section Runs

variable {start : Replica σ} {h : List (Moment σ)}

theorem Run.seats (hn : start.attempt = none) (hr : Run start h r) : r.Seats := by
  intro kind p hp
  cases kind with
  | preprepare => cases hp
  | prepare =>
    obtain ⟨a, ha, rfl⟩ := Option.map_eq_some_iff.mp hp
    exact (hr.seconded hn a ha).committee
  | commit =>
    obtain ⟨a, ha, rfl⟩ := Option.map_eq_some_iff.mp hp
    exact (hr.coherent hn a ha).committee
  | roundChange =>
    obtain ⟨view, hv, rfl⟩ := Option.map_eq_some_iff.mp hp
    exact ((hr.counted (by simp [view?, hn]) view hv).poll view.round).1

theorem Run.accounts (hn : start.attempt = none) (hk : start.signer.Honest) (hr : Run start h r)
    (hstop : ∀ m ∈ h, m.event = .stop → m.before.ready = []) : r.Accounts := by
  induction hr with
  | nil =>
    intro _ c ho
    obtain ⟨a, -, ha, -⟩ := ho.subject
    rw [show start.stance.attempt = none from hn] at ha
    cases ha
  | @step h r e hr ih =>
    exact Moment.accounts (m := ⟨r, e⟩) (hr.signer ▸ hk) (hr.seats hn) (hstop _ List.mem_cons_self)
      (ih fun m hm => hstop m (List.mem_cons_of_mem _ hm))

theorem create_placed {signer : Signer} {ledger : σ} {archive : Archive} {gossip : Gossip}
    {timer : Timer} {capacity : Nat}
    (hc : create signer ledger archive gossip timer capacity = .ok start) : start.stance.Placed := by
  obtain ⟨_, _, _, -, -, rfl⟩ := create_ok hc
  exact ⟨fun hw => (Bool.false_ne_true hw).elim, fun _ hp => absurd rfl hp⟩

theorem Run.placed (hs : start.stance.Placed) (hr : Run start h r) : r.stance.Placed :=
  hr.follow (P := fun _ s => s.Placed) hs id (fun _ hs => ⟨hs.waiting, hs.proposed⟩)
    fun _ hm hs => hm.placed hs

/-- Between two events a replica that is a member, and whose messages get signed, has counted itself.
While it waits, its request for the view that it waits for is counted, if a round follows it. With an
accepted proposal its Prepare is counted, and with a locked one its Commit. -/
theorem counts_own_vote {signer : Signer} {ledger : σ} {archive : Archive} {gossip : Gossip}
    {timer : Timer} {capacity : Nat}
    (hc : create signer ledger archive gossip timer capacity = .ok start) (hk : signer.Honest)
    (hsign : ∀ digest, ∃ signature, signer.sign digest = some signature) (hr : Run start h r)
    (hstop : ∀ m ∈ h, m.event = .stop → m.before.ready = []) (hready : r.ready = [])
    (hm : signer.address ∈ r.committee.members) :
    (r.waiting = true → ∃ view, r.view? = some view ∧ (next? view.round ≠ none →
      ∃ c ∈ (r.roundChanges.poll view.round).messages, c.sender = signer.address ∧ c.Requests view)) ∧
    (r.waiting = false → r.phase = .preprepared → ∃ a b, r.attempt = some a ∧ a.proposal = some b ∧
      ∃ c ∈ a.prepares.messages, c.sender = signer.address ∧ c.Seconds ⟨a.view, b.hash⟩) ∧
    (r.waiting = false → r.phase = .prepared → ∃ a b, r.attempt = some a ∧ a.proposal = some b ∧
      ∃ c ∈ a.commits.messages, c.sender = signer.address ∧ c.CommitsTo ⟨a.view, b.hash⟩) := by
  obtain ⟨-, -, hsigner, -, -, hn, -⟩ := create_spec hc
  obtain rfl : r.signer = signer := hr.signer.trans hsigner
  -- nothing is left to process, so what is owed is counted
  have hcounted {c : Message} (ho : r.stance.Owes c) :
      ∃ p, r.poll? c.kind = some p ∧ ∃ x ∈ p.messages, x.sender = r.signer.address := by
    have haccounts := hr.accounts hn (hsigner ▸ hk) hstop hm c ho
    obtain ⟨p, hp, hs⟩ := haccounts.resolve_right (by simp [agenda, hready])
    obtain ⟨x, hx, hsender⟩ := List.mem_map.mp hs
    exact ⟨p, hp, x, hx, hsender.trans (ho.signed hk).2⟩
  have hplaced := hr.placed (create_placed hc)
  refine ⟨fun hw => ?_, fun hw hp => ?_, fun hw hp => ?_⟩
  · obtain ⟨a, ha⟩ := hplaced.waiting hw
    have hv := view?_of_attempt ha
    refine ⟨a.view, hv, fun hnext => ?_⟩
    obtain ⟨c, hc⟩ := Message.exists_signed hsign .roundChange (Wire.encode (Subject.mk a.view 0)) none
    obtain ⟨p, hp, x, hx, hsender⟩ := hcounted (.request ha hw hnext hc)
    simp only [(Message.roundChange_spec hc).1, poll?, hv, Option.map_some, Option.some.injEq] at hp
    subst hp
    have htold := (hr.counted (by simp [view?, hn]) a.view hv).poll a.view.round
    exact ⟨x, hx, hsender, (htold.2 x hx).1⟩
  · obtain ⟨a, b, ha, hb⟩ := hplaced.proposed hw (by rw [show r.stance.phase = _ from hp]; decide)
    obtain ⟨c, hc⟩ := Message.exists_signed hsign .prepare (Wire.encode (Subject.mk a.view b.hash)) none
    obtain ⟨p, hpoll, x, hx, hsender⟩ := hcounted (.prepare ha hb hw hp hc)
    simp only [(Message.prepare_spec hc).1, poll?, show r.attempt = some a from ha, Option.map_some,
      Option.some.injEq] at hpoll
    subst hpoll
    obtain ⟨b', hb', hseconds, -⟩ := (hr.seconded hn a ha).counted x hx
    obtain rfl := Option.some.inj (hb.symm.trans hb')
    exact ⟨a, b, ha, hb, x, hx, hsender, hseconds⟩
  · obtain ⟨a, b, ha, hb⟩ := hplaced.proposed hw (by rw [show r.stance.phase = _ from hp]; decide)
    obtain ⟨c, hc⟩ := Message.exists_commit hsign ⟨a.view, b.hash⟩
    obtain ⟨p, hpoll, x, hx, hsender⟩ := hcounted (.commit ha hb hw hp hc)
    simp only [(Message.commit_spec hc).1, poll?, show r.attempt = some a from ha, Option.map_some,
      Option.some.injEq] at hpoll
    subst hpoll
    obtain ⟨b', hb', hcommits, -⟩ := (hr.coherent hn a ha).counted x hx
    obtain rfl := Option.some.inj (hb.symm.trans hb')
    exact ⟨a, b, ha, hb, x, hx, hsender, hcommits⟩

end Runs

end Replica

namespace Pair

open Replica

attribute [local instance] Scheme.plain

/-- The first validator waits for round 1, for which it has counted its own request. -/
theorem counts_own_vote_waiting : ∃ start, replica first = .ok start ∧
    let r := lateEvents.foldl react start
    r.waiting = true ∧ r.view? = some ⟨1, 1⟩ ∧
      ∃ c ∈ (r.roundChanges.poll 1).messages, c.sender = first.address ∧ c.Requests ⟨1, 1⟩ := by
  obtain ⟨start, hc, hready, hm, hw, hv⟩ := exists_replica (k := first) (P := fun start =>
    (lateEvents.foldl react start).ready = [] ∧
    first.address ∈ (lateEvents.foldl react start).committee.members ∧
    (lateEvents.foldl react start).waiting = true ∧
    (lateEvents.foldl react start).view? = some ⟨1, 1⟩) (by decide +kernel)
  have hstop : ∀ m ∈ start.moments lateEvents, m.event = .stop → m.before.ready = [] := by
    intro m hm he
    have hevent := event_of_mem_moments hm
    rw [he] at hevent
    simp [lateEvents] at hevent
  obtain ⟨hwaits, -⟩ := counts_own_vote hc (Signer.plain_honest 1) (fun _ => ⟨_, rfl⟩)
    (moments_run start lateEvents) hstop hready hm
  obtain ⟨view, hview, hcounted⟩ := hwaits hw
  obtain rfl := Option.some.inj (hv.symm.trans hview)
  exact ⟨start, hc, hw, hv, hcounted (by decide)⟩

end Pair

end BlockAgreement
