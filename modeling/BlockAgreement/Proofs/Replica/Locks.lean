import BlockAgreement.Proofs.Replica.Progress
import BlockAgreement.Proofs.Replica.Support
import BlockAgreement.Proofs.Replica.Votes

/-!
# What a lock rests on

A replica locks a proposal when a quorum has supported it in one round, and keeps the lock as long as the
height lasts. Whatever it votes for in a round is the one proposal that it has accepted there.
-/

set_option autoImplicit false

namespace BlockAgreement

namespace Attempt

def support (a : Attempt) : List Message :=
  a.prepares.messages ++ a.commits.messages.filter fun m => !a.prepares.contains m.sender

theorem length_support (a : Attempt) : a.support.length = a.supporters := by
  simp [support, supporters, Poll.size, Poll.senders, List.filter_map, Function.comp_def]

theorem distinct_support (a : Attempt) : (a.support.map Message.sender).Nodup := by
  rw [support, List.map_append]
  refine List.nodup_append.mpr ⟨a.prepares.distinct, ?_, ?_⟩
  · exact a.commits.distinct.sublist (List.filter_sublist.map _)
  · rintro x hx y hy rfl
    obtain ⟨m, hm, rfl⟩ := List.mem_map.mp hy
    have hnot := (List.mem_filter.mp hm).2
    rw [Poll.contains_iff.mpr hx] at hnot
    cases hnot

end Attempt

variable [Scheme]

structure Message.Supports (c : Message) (x : Subject) : Prop where
  kind : c.kind = .prepare ∨ c.kind = .commit
  verified : c.verify = .ok ()
  subject : c.subject = .ok x

theorem Message.Seconds.supports {c : Message} {x : Subject} (h : c.Seconds x) : c.Supports x :=
  ⟨.inl h.kind, h.verified, h.subject⟩

theorem Message.CommitsTo.supports {c : Message} {x : Subject} (h : c.CommitsTo x) : c.Supports x :=
  ⟨.inr h.kind, h.verified, h.subject⟩

structure Warrant (T : Committee → Prop) (H : Message → Prop) (c : Committee) (x : Subject)
    (votes : List Message) : Prop where
  committee : T c
  distinct : (votes.map Message.sender).Nodup
  members : ∀ m ∈ votes, m.sender ∈ c.members
  quorum : c.quorum ≤ votes.length
  supports : ∀ m ∈ votes, m.Supports x ∧ H m

namespace Stance

variable {σ : Type} {T : Committee → Prop} {H : Message → Prop} {s t : Stance σ} {a b : Attempt}

def Warranted (T : Committee → Prop) (H : Message → Prop) (s : Stance σ) : Prop :=
  ∀ a ∈ s.attempt, ∀ d ∈ a.lock, ∃ round c votes, round ≤ a.view.round ∧
    c.members = s.committee.members ∧ Warrant T H c ⟨⟨a.view.sequence, round⟩, d⟩ votes

theorem Warranted.mono {U : Committee → Prop} {K : Message → Prop} (ht : ∀ c, T c → U c)
    (hk : ∀ c, H c → K c) (hs : s.Warranted T H) : s.Warranted U K := by
  intro a ha d hd
  obtain ⟨round, c, votes, hle, hc, hw⟩ := hs a ha d hd
  exact ⟨round, c, votes, hle, hc, { hw with
    committee := ht c hw.committee
    supports := fun m hm => ⟨(hw.supports m hm).1, hk m (hw.supports m hm).2⟩ }⟩

theorem Warranted.stay (hs : s.Warranted T H) (ha : s.attempt = some a) (hb : t.attempt = some b)
    (hl : ∀ d ∈ b.lock, a.lock = some d) (hv : b.view.sequence = a.view.sequence)
    (hr : a.view.round ≤ b.view.round) (hc : t.committee.members = s.committee.members) :
    t.Warranted T H := by
  rintro x hx d hd
  obtain rfl := Option.some.inj (hb.symm.trans hx)
  obtain ⟨round, c, votes, hle, hm, hw⟩ := hs a ha d (hl d hd)
  exact ⟨round, c, votes, UInt64.le_trans hle hr, hm.trans hc.symm, hv.symm ▸ hw⟩

theorem Warranted.of_none (hb : t.attempt = some b) (hl : b.lock = none) : t.Warranted T H := by
  rintro x hx d hd
  obtain rfl := Option.some.inj (hb.symm.trans hx)
  rw [hl] at hd
  cases hd

theorem Backs.warrant (hs : s.Backs H a) (hf : s.Fits H a) (hT : T s.committee) {x : Block}
    (hx : a.proposal = some x) (hq : s.committee.quorum ≤ a.supporters) :
    Warrant T H s.committee ⟨a.view, x.hash⟩ a.support where
  committee := hT
  distinct := a.distinct_support
  members m hm := by
    rcases List.mem_append.mp hm with hm | hm
    · exact hs.committee ▸ a.prepares.authorized m hm
    · exact hf.committee ▸ a.commits.authorized m (List.mem_of_mem_filter hm)
  quorum := a.length_support.symm ▸ hq
  supports m hm := by
    rcases List.mem_append.mp hm with hm | hm
    · obtain ⟨y, hy, hsec, hh⟩ := hs.counted m hm
      obtain rfl := Option.some.inj (hx.symm.trans hy)
      exact ⟨hsec.supports, hh⟩
    · obtain ⟨y, hy, hto, hh⟩ := hf.counted m (List.mem_of_mem_filter hm)
      obtain rfl := Option.some.inj (hx.symm.trans hy)
      exact ⟨hto.supports, hh⟩

theorem Fits.warrant (hf : s.Fits H a) (hT : T s.committee) {x : Block} (hx : a.proposal = some x)
    (hq : s.committee.quorum ≤ a.commits.size) :
    Warrant T H s.committee ⟨a.view, x.hash⟩ a.commits.messages where
  committee := hT
  distinct := a.commits.distinct
  members m hm := hf.committee ▸ a.commits.authorized m hm
  quorum := hq
  supports m hm := by
    obtain ⟨y, hy, hto, hh⟩ := hf.counted m hm
    obtain rfl := Option.some.inj (hx.symm.trans hy)
    exact ⟨hto.supports, hh⟩

variable [Ledger σ] {origin : Stance σ} {heard : Option Message} {es : List Effect}

theorem Move.warranted (h : Move origin heard s es t) (hh : ∀ m ∈ heard, H m)
    (hT : T origin.committee) (hf : origin.Coherent H) (hb : origin.Seconded H)
    (hs : s.Warranted T H) : t.Warranted T H := by
  cases h with
  | consult number hash => exact hs
  | request b ha hb => exact hs.stay ha rfl (fun d hd => hd) rfl (UInt64.le_refl _) rfl
  | propose ha hb hp hn hr => exact hs
  | ask ha hr => exact hs.stay ha rfl (fun d hd => hd) rfl (UInt64.le_of_lt hr) rfl
  | enterSequence hn ha => exact .of_none rfl rfl
  | enterRound ha hn h0 hr hw =>
    exact hs.stay ha rfl (fun d hd => hd) rfl (UInt64.not_lt.mp hr) rfl
  | accept hm hp hl => exact .of_none rfl hl
  | support hm hp hl => exact hs.stay hp.attempt rfl (fun d hd => hd) rfl (UInt64.le_refl _) rfl
  | answer hm hc ha hk hp hv hh hn => exact hs
  | countPrepare hm hc hp => exact hs.stay hc.attempt rfl (fun d hd => hd) rfl (UInt64.le_refl _) rfl
  | @lock a b m prepares hm hc hp hq hn =>
    rcases hq with hl | hq
    · refine hs.stay hc.attempt rfl (fun d hd => ?_) rfl (UInt64.le_refl _) rfl
      rw [hl]
      exact hd
    · rintro x ⟨⟩ d ⟨⟩
      have hback : s.Backs H { a with prepares } :=
        (hb a hc.attempt).count hc hp (hh m hm) hc.active hc.proposed rfl
      have hfit : s.Fits H { a with prepares } := { hf a hc.attempt with }
      exact ⟨_, _, _, UInt64.le_refl _, rfl, hback.warrant hfit hT hc.proposal hq⟩
  | countCommit hm hc hseal hp =>
    exact hs.stay hc.attempt rfl (fun d hd => hd) rfl (UInt64.le_refl _) rfl
  | @finalize a b m commits ledger hm hc hseal hp hq hn hl =>
    rintro x ⟨⟩ d ⟨⟩
    have hfit : s.Fits H { a with commits, lock := some b.hash } :=
      (hf a hc.attempt).count hc hseal hp (hh m hm) (by simp) hc.active hc.proposed rfl
    exact ⟨_, _, _, UInt64.le_refl _, rfl, hfit.warrant hT hc.proposal hq⟩
  | refuse hm hc hseal hp hq hn hl => exact .of_none rfl rfl

structure Devoted (s : Stance σ) (log : List Ballot) : Prop where
  current : ∀ a ∈ s.attempt, ∀ x ∈ log, x.view = a.view → ∃ b, a.proposal = some b ∧ b.hash = x.digest
  agree : log.Pairwise fun x y => x.view = y.view → x.digest = y.digest

variable {log : List Ballot}

omit [Ledger σ] in
theorem Devoted.stay (hs : s.Devoted log) (ha : s.attempt = some a) (hb : t.attempt = some b)
    (hv : b.view = a.view) (hp : b.proposal = a.proposal) : t.Devoted log := by
  refine ⟨fun c hc x hx h => ?_, hs.agree⟩
  obtain rfl := Option.some.inj (hb.symm.trans hc)
  rw [hp]
  exact hs.current a ha x hx (h.trans hv)

omit [Ledger σ] in
theorem Devoted.leave (hs : s.Devoted log) (hk : t.Keeps log)
    (ht : t.waiting = true ∨ t.phase = .newRound) : t.Devoted log := by
  refine ⟨fun c hc x hx h => ?_, hs.agree⟩
  obtain ⟨hw, hn, -⟩ := hk.current c hc x hx h
  rcases ht with h | h
  · rw [hw] at h
    cases h
  · exact absurd h hn

theorem Devoted.vote {m : Option Message} {x : Ballot} {c : Block} (hs : s.Devoted log)
    (hb : t.attempt = some b) (hm : ∀ c ∈ m, c.ballot? = some x) (hx : x.view = b.view)
    (hp : b.proposal = some c) (hc : c.hash = x.digest)
    (hold : ∀ y ∈ log, y.view = b.view → y.digest = x.digest) :
    t.Devoted (origin.ballots heard (voice m) ++ log) := by
  have hstay : t.Devoted log := by
    refine ⟨fun a ha y hy h => ?_, hs.agree⟩
    obtain rfl := Option.some.inj (hb.symm.trans ha)
    exact ⟨c, hp, hc.trans (hold y hy h).symm⟩
  have hsay : origin.ballots heard (voice m) = [] ∨ _ := ballots_voice hm
  rcases hsay with h | h
  · rw [h]
    exact hstay
  · rw [h]
    refine ⟨fun a ha y hy hv => ?_, List.pairwise_cons.mpr ⟨fun y hy hv => ?_, hs.agree⟩⟩
    · obtain rfl := Option.some.inj (hb.symm.trans ha)
      rcases List.mem_cons.mp hy with rfl | hy
      · exact ⟨c, hp, hc⟩
      · exact hstay.current b ha y hy hv
    · exact (hold y hy (hv.symm.trans hx)).symm

theorem Move.devoted (h : Move origin heard s es t) (hk : s.Keeps log)
    (ht : t.Keeps (origin.ballots heard es ++ log)) (hs : s.Devoted log) :
    t.Devoted (origin.ballots heard es ++ log) := by
  cases h with
  | consult number hash => exact ⟨hs.current, hs.agree⟩
  | request b ha hb => exact hs.stay ha rfl rfl rfl
  | propose ha hb hp hn hr =>
    rw [ballots_silent fun c hc => Message.ballot?_other (by simp [(Message.signed_spec hc).1])]
    exact hs
  | ask ha hr =>
    rw [ballots_silent fun c hc => Message.ballot?_other (by simp [(Message.signed_spec hc).1])] at ht ⊢
    exact hs.leave ht (.inl rfl)
  | enterSequence hn ha => exact hs.leave ht (.inr rfl)
  | enterRound ha hn h0 hr hw => exact hs.leave ht (.inr rfl)
  | @accept a p m archive hm hp hl =>
    refine hs.vote (x := ⟨.prepare, a.view, p.proposal.hash⟩) rfl
      (fun c hc => Message.ballot?_prepare hc) rfl rfl rfl ?_
    exact fun y hy h => absurd hp.fresh (hk.current _ hp.attempt y hy h).2.1
  | @support a p m archive hm hp hl =>
    refine hs.vote (x := ⟨.commit, a.view, p.proposal.hash⟩) rfl
      (fun c hc => Message.ballot?_commit hc) rfl rfl rfl ?_
    exact fun y hy h => absurd hp.fresh (hk.current _ hp.attempt y hy h).2.1
  | @answer a p m header archive hm hc ha hk' hp hv hh hn =>
    rw [ballots_answers fun c hc =>
      answers_answer hm ha hk' hp hv hh hn (Message.ballot?_commit hc)]
    exact ⟨hs.current, hs.agree⟩
  | countPrepare hm hc hp => exact hs.stay hc.attempt rfl rfl rfl
  | @lock a b m prepares hm hc hp hq hn =>
    refine hs.vote (x := ⟨.commit, a.view, b.hash⟩) rfl (fun c hc => Message.ballot?_commit hc) rfl
      hc.proposal rfl fun y hy h => ?_
    -- whatever the replica has cast in this view was for its proposal
    obtain ⟨c, hcp, he⟩ := hs.current a hc.attempt y hy h
    obtain rfl := Option.some.inj (hcp.symm.trans hc.proposal)
    exact he.symm
  | countCommit hm hc hseal hp => exact hs.stay hc.attempt rfl rfl rfl
  | finalize hm hc hseal hp hq hn hl => exact hs.stay hc.attempt rfl rfl rfl
  | refuse hm hc hseal hp hq hn hl => exact hs.stay hc.attempt rfl rfl rfl

def Holds (n : Height) (d : Digest) (s : Stance σ) : Prop :=
  ∃ a, s.attempt = some a ∧ n ≤ a.view.sequence ∧ (a.view.sequence = n → a.lock = some d)

omit [Scheme] [Ledger σ] in
theorem Holds.stay {n : Height} {d : Digest} (hs : s.Holds n d) (ha : s.attempt = some a)
    (hb : t.attempt = some b) (hv : b.view.sequence = a.view.sequence)
    (hl : a.lock = some d → b.lock = some d) : t.Holds n d := by
  obtain ⟨c, hc, hn, hd⟩ := hs
  obtain rfl := Option.some.inj (ha.symm.trans hc)
  exact ⟨b, hb, hv.symm ▸ hn, fun h => hl (hd (hv.symm.trans h))⟩

theorem Move.holds {n : Height} {d : Digest} (h : Move origin heard s es t)
    (he : ∀ e ∈ es, ∀ b, e = .commit b → ∃ l, Ledger.append origin.ledger b = .ok l)
    (hf : s.Coherent H) (hs : s.Holds n d) : t.Holds n d := by
  -- what is locked is the proposal, so that to lock the proposal changes nothing
  have hsame {a : Attempt} {b : Block} (ha : s.attempt = some a) (hb : a.proposal = some b)
      (hl : a.lock = some d) : some b.hash = some d := by
    obtain ⟨c, hc, rfl⟩ := (hf a ha).locked d hl
    rw [Option.some.inj (hb.symm.trans hc)]
  cases h with
  | consult number hash => exact hs
  | request b ha hb => exact hs.stay ha rfl rfl id
  | propose ha hb hp hn hr => exact hs
  | ask ha hr => exact hs.stay ha rfl rfl id
  | @enterSequence _ sequence hn ha =>
    obtain ⟨a, hsome, hle, -⟩ := hs
    have hlt : n < sequence := by
      have hbelow := UInt64.le_iff_toNat_le.mp (UInt64.le_trans hle (ha a hsome))
      rw [UInt64.lt_iff_toNat_lt, toNat_of_next? hn]
      omega
    exact ⟨_, rfl, UInt64.le_of_lt hlt, fun h => absurd (h ▸ hlt) (UInt64.lt_irrefl _)⟩
  | enterRound ha hn h0 hr hw => exact hs.stay ha rfl rfl id
  | accept hm hp hl => exact hs.stay hp.attempt rfl rfl id
  | support hm hp hl => exact hs.stay hp.attempt rfl rfl id
  | answer hm hc ha hk hp hv hh hn => exact hs
  | countPrepare hm hc hp => exact hs.stay hc.attempt rfl rfl id
  | lock hm hc hp hq hn => exact hs.stay hc.attempt rfl rfl (hsame hc.attempt hc.proposal)
  | countCommit hm hc hseal hp => exact hs.stay hc.attempt rfl rfl id
  | finalize hm hc hseal hp hq hn hl =>
    exact hs.stay hc.attempt rfl rfl (hsame hc.attempt hc.proposal)
  | refuse hm hc hseal hp hq hn hl =>
    obtain ⟨l, happ⟩ := he _ List.mem_cons_self _ rfl
    rw [hl] at happ
    cases happ

end Stance

namespace Position

variable {origin p q : Position} {heard : Option Message} {head n : Height} {vs : List View}

structure Above (n : Height) (p : Position) : Prop where
  head : n ≤ p.head
  view : ∀ view ∈ p.view, n < view.sequence

theorem Step.above (h : Step origin heard head p vs q) (hn : n ≤ head) (hp : p.Above n) :
    q.Above n := by
  cases h with
  | rise => exact ⟨hp.head, hp.view⟩
  | append => exact ⟨hn, hp.view⟩
  | ask hv hr =>
    refine ⟨hp.head, ?_⟩
    rintro view ⟨⟩
    exact (hp.view _ hv :)
  | enterSequence hnext hv =>
    refine ⟨hp.head, ?_⟩
    rintro view ⟨⟩
    have hle := UInt64.le_iff_toNat_le.mp hp.head
    rw [UInt64.lt_iff_toNat_lt, toNat_of_next? hnext]
    omega
  | enterRound hm ha hq h0 hnext =>
    refine ⟨hp.head, ?_⟩
    rintro view ⟨⟩
    exact (hp.view _ ha.current :)
  | count => exact ⟨hp.head, hp.view⟩
  | miss => exact ⟨hp.head, hp.view⟩

theorem Steps.above (h : Steps origin heard head p vs q) (hn : n ≤ head) (hp : p.Above n) :
    q.Above n := by
  induction h with
  | refl => exact hp
  | step _ hs ih => exact hs.above hn ih

end Position

namespace Replica

open Stance

variable {σ : Type} [Ledger σ] {start r : Replica σ} {h : List (Moment σ)}

def Served (h : List (Moment σ)) (c : Committee) : Prop := ∃ m ∈ h, m.before.committee = c

omit [Scheme] [Ledger σ] in
theorem Served.cons {c : Committee} (hc : Served h c) (m : Moment σ) : Served (m :: h) c :=
  hc.imp fun _ hn => ⟨List.mem_cons_of_mem _ hn.1, hn.2⟩

theorem Run.warranted (hr : Run start h r) (hs : start.attempt = none) :
    r.stance.Warranted (Served h) (Heard h) := by
  refine hr.follow (P := fun h s => s.Warranted (Served h) (Heard h)) (fun a ha => ?_)
    (fun hw => hw.mono (fun c hc => hc.cons _) fun c hc => hc.cons _) (fun _ hw => hw)
    fun hb hm hw => hm.warranted (fun c hc => heard_cons_self hc) ⟨_, List.mem_cons_self, rfl⟩
      ((hb.coherent hs).mono fun c hc => hc.cons _) ((hb.seconded hs).mono fun c hc => hc.cons _) hw
  rw [show start.stance.attempt = none from hs] at ha
  cases ha

theorem Run.devoted (hr : Run start h r) (hs : start.attempt = none) (ha : ∀ m ∈ h, m.Accepted) :
    r.stance.Devoted (h.flatMap Moment.ballots) :=
  (hr.cast (P := fun s log => s.Keeps log ∧ s.Devoted log) hs ha
    ⟨.nil _, by simp, .nil⟩
    (fun _ _ _ hk => ⟨⟨hk.1.begun, hk.1.past, hk.1.current, hk.1.locked, hk.1.follows⟩,
      ⟨hk.2.current, hk.2.agree⟩⟩)
    fun hm he hf hk =>
      have hkeep := hm.keeps he hf hk.1
      ⟨hkeep, hm.devoted hk.1 hkeep hk.2⟩).2

/-- As long as the ledger takes what it is handed, a lock lasts as long as the height. -/
theorem Moment.lock_lasts {m : Moment σ} {a b : Attempt} {d : Digest} (hm : m.Accepted)
    (hf : m.before.stance.Coherent fun _ => True) (ha : m.before.attempt = some a)
    (hd : a.lock = some d) (hb : m.after.attempt = some b)
    (hv : b.view.sequence = a.view.sequence) : b.lock = some d := by
  have hbefore : m.before.stance.Holds a.view.sequence d := ⟨a, ha, UInt64.le_refl _, fun _ => hd⟩
  have hafter : m.after.stance.Holds a.view.sequence d := by
    by_cases he : ∃ l, m.event = .replace l
    · obtain ⟨l, he⟩ := he
      rw [(Moment.replaced he).2.1]
      exact hbefore
    · obtain ⟨-, hmoves, -⟩ := Moment.moves (m := m) (by simpa using he)
      refine (hmoves.preserve
        (E := fun e => ∀ b, e = .commit b → ∃ l, Ledger.append m.before.ledger b = .ok l)
        (P := fun s _ => s.Coherent (fun _ => True) ∧ s.Holds _ d) []
        (fun hmove hE _ hs => ⟨hmove.coherent (by simp) hs.1, hmove.holds hE hs.1 hs.2⟩) ?_
        ⟨hf, hbefore⟩).2
      rintro e he b rfl
      exact hm b (List.mem_filter.mp he).1
  obtain ⟨c, hc, -, hl⟩ := hafter
  obtain rfl := Option.some.inj (hb.symm.trans hc)
  exact hl hv

end Replica

end BlockAgreement
