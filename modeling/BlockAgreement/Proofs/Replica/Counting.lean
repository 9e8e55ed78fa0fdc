import BlockAgreement.Proofs.Ledger.Lawful
import BlockAgreement.Proofs.Replica.Proposals
import BlockAgreement.Proofs.Replica.Refusals
import BlockAgreement.Proofs.Replica.Support
import Mathlib.Data.List.Perm.Subperm

/-!
# Counting the votes for a proposal

As long as a replica has an accepted proposal and hears nothing but votes for it, each vote that it was
told of is counted or waits to be processed. The quorum of Commits hands the block to the ledger and takes
the replica to the next height, where the votes that are left are old.
-/

set_option autoImplicit false

namespace BlockAgreement

def Effect.commits (es : List Effect) : List Block :=
  es.filterMap fun
    | .commit b => some b
    | _ => none

theorem Effect.commits_append (es fs : List Effect) : commits (es ++ fs) = commits es ++ commits fs :=
  List.filterMap_append

structure Message.VotesFor [Scheme] (m : Message) (c : Committee) (x : Subject) : Prop where
  verified : m.verify = .ok ()
  member : m.sender ∈ c.members
  subject : m.subject = .ok x
  kind : m.kind = .prepare ∨ m.kind = .commit ∧ m.verifyCommittedSeal x.digest = .ok ()

namespace Message

variable [Scheme] {k : Signer} {committee : Committee} {x : Subject} {c : Message}

theorem votesFor_prepare (hk : k.Honest) (hm : k.address ∈ committee.members)
    (h : prepare k x = some c) : c.VotesFor committee x := by
  obtain ⟨hkind, hsub⟩ := prepare_spec h
  exact ⟨verify_signed hk h, (signed_spec h).2.2 ▸ hm, hsub, .inl hkind⟩

theorem votesFor_commit (hk : k.Honest) (hm : k.address ∈ committee.members)
    (h : commit k x = some c) : c.VotesFor committee x := by
  obtain ⟨hkind, hsub, hsender⟩ := commit_spec h
  obtain ⟨_, -, hsigned⟩ := signed_of_commit h
  exact ⟨verify_signed hk hsigned, hsender ▸ hm, hsub, .inr ⟨hkind, verifyCommittedSeal_commit hk h⟩⟩

end Message

namespace Replica

variable {σ : Type} {r s t : Replica σ} {own later : List Message}

/-- From `r` to `s` these messages were broadcast and are ready now, and things were sent and reported.
Nothing else has happened. -/
structure Aside (r s : Replica σ) (own : List Message) : Prop where
  same : ∃ gossip timer effects ready, s = { r with gossip, timer, effects, ready }
  shown : ∃ new, s.effects = new ++ r.effects ∧ Effect.commits new = []
  agenda : s.agenda = r.agenda ++ own

theorem Aside.trans (hs : Aside r s own) (ht : Aside s t later) : Aside r t (own ++ later) := by
  obtain ⟨gossip, timer, effects, ready, rfl⟩ := hs.same
  obtain ⟨gossip', timer', effects', ready', rfl⟩ := ht.same
  obtain ⟨new, hn, hnew⟩ := hs.shown
  obtain ⟨new', hn', hnew'⟩ := ht.shown
  refine ⟨⟨gossip', timer', effects', ready', rfl⟩, ⟨new' ++ new, ?_, ?_⟩, ?_⟩
  · rw [hn', hn, List.append_assoc]
  · rw [Effect.commits_append, hnew, hnew', List.append_nil]
  · rw [ht.agenda, hs.agenda, List.append_assoc]

theorem drop_aside (r : Replica σ) (m : Message) (reason : Rejection) : Aside r (r.drop m reason) [] :=
  ⟨⟨_, _, _, _, rfl⟩, ⟨[_], rfl, rfl⟩, (List.append_nil _).symm⟩

theorem relay_aside [Scheme] (r : Replica σ) (payload : Bytes) : Aside r (r.relay payload) [] := by
  obtain ⟨gossip, sends, he, hs⟩ := relay_eq r payload
  rw [he]
  refine ⟨⟨_, _, _, _, rfl⟩, ⟨sends, rfl, List.filterMap_eq_nil_iff.mpr fun e hm => ?_⟩,
    (List.append_nil _).symm⟩
  obtain ⟨a, rfl⟩ := hs e hm
  rfl

theorem broadcast_aside [Scheme] (r : Replica σ) (c : Message) (notice : Notice) :
    Aside r (r.broadcast (some c) notice) [c] := by
  have hemit : Aside r (r.emit (.broadcast c)) [] :=
    ⟨⟨_, _, _, _, rfl⟩, ⟨[_], rfl, rfl⟩, (List.append_nil _).symm⟩
  have hready (s : Replica σ) : Aside s
      ({ s with ready := s.ready ++ [Delivery.mk c (Wire.encode c)] }.notify notice) [c] :=
    ⟨⟨_, _, _, _, rfl⟩, ⟨[_], rfl, rfl⟩, List.map_append⟩
  exact (hemit.trans (relay_aside _ _)).trans (hready _)

theorem extendTime_eq (r : Replica σ) (phase : Phase) :
    ∃ timer, r.extendTime phase = { r with timer } := by
  unfold extendTime
  split
  · split
    · exact ⟨_, rfl⟩
    · exact ⟨_, rfl⟩
  · exact ⟨_, rfl⟩

theorem replay_eq {capacity : Nat} (hb : r.backlog = .empty capacity) : r.replay = r := by
  unfold replay
  split
  · rfl
  · rw [hb]
    show { r with backlog := .empty capacity, ready := r.ready ++ [] } = r
    rw [List.append_nil, ← hb]

theorem enterPhase_eq [Scheme] {capacity : Nat} (hb : r.backlog = .empty capacity) (phase : Phase)
    (hp : phase ≠ .newRound) : ∃ timer, r.enterPhase phase = { r with timer, phase } := by
  obtain ⟨timer, ht⟩ := extendTime_eq r phase
  refine ⟨timer, ?_⟩
  unfold enterPhase
  dsimp only
  rw [if_neg hp, ht]
  exact replay_eq (r := { r with timer, phase }) hb

variable [Scheme] {view : View} {next : Height} {b : Block} {told todo : List Message}

/-- Of every vote of this kind that the replica was told of, the sender is counted or the vote is still to
be processed. -/
def Accounted (kind : MessageKind) (told todo : List Message) (senders : List Address) : Prop :=
  ∀ c ∈ told, c.kind = kind → c.sender ∈ senders ∨ c ∈ todo

structure Tally (committee : Committee) (b : Block) (told todo : List Message) (a : Attempt) :
    Prop where
  proposal : a.proposal = some b
  lock : ∀ d ∈ a.lock, d = b.hash
  prepares : a.prepares.committee.members = committee.members
  commits : a.commits.committee.members = committee.members
  few : a.commits.size < committee.quorum
  prepared : Accounted .prepare told todo a.prepares.senders
  committed : Accounted .commit told todo a.commits.senders

/-- The replica has come from `r` and has accepted the proposal of the view. It was told of some votes, of
which some are still to be processed, and hands the block to the ledger with the quorum of Commits. -/
structure Open (r : Replica σ) (view : View) (b : Block) (told todo : List Message) (s : Replica σ) :
    Prop where
  started : s.started = true
  signer : s.signer = r.signer
  ledger : s.ledger = r.ledger
  committee : s.committee = r.committee
  held : s.held = r.held
  backlog : s.backlog = .empty r.backlog.capacity
  waiting : s.waiting = false
  phase : s.phase = .preprepared ∨ s.phase = .prepared
  attempt : ∃ a, s.attempt = some a ∧ a.view = view ∧ Tally r.committee b told todo a ∧
    (s.phase = .preprepared → a.prepares.size < r.committee.quorum)
  prepared : ∀ c ∈ Message.prepare r.signer ⟨view, b.hash⟩, c ∈ told
  committed : s.phase = .prepared → ∀ c ∈ Message.commit r.signer ⟨view, b.hash⟩, c ∈ told
  todo : ∀ c ∈ todo, c.VotesFor r.committee ⟨view, b.hash⟩
  shown : ∃ new, s.effects = new ++ r.effects ∧ Effect.commits new = []

/-- The replica has come from `r` and has handed the block to the ledger. It is in round 0 of the next
height, where nothing but votes for that block is left to be processed. -/
structure Closed [Ledger σ] (r : Replica σ) (view : View) (b : Block) (next : Height)
    (todo : List Message) (s : Replica σ) : Prop where
  started : s.started = true
  entered : s.view? = some ⟨next, 0⟩
  waiting : s.waiting = false
  phase : s.phase = .newRound
  todo : ∀ c ∈ todo, c.VotesFor r.committee ⟨view, b.hash⟩
  shown : ∃ new c, s.effects = new ++ r.effects ∧ Effect.commits new = [c] ∧ c.hash = b.hash ∧
    Ledger.append r.ledger c = .ok s.ledger

/-- What a replica needs to decide on a block in a view: to sign votes for it as a member, and a ledger
that takes it. Nothing is to be proposed afterwards. -/
structure Able [Ledger σ] (r : Replica σ) (view : View) (b : Block) (next : Height) : Prop where
  honest : r.signer.Honest
  member : r.signer.address ∈ r.committee.members
  prepare : ∃ c, Message.prepare r.signer ⟨view, b.hash⟩ = some c
  commit : ∃ c, Message.commit r.signer ⟨view, b.hash⟩ = some c
  number : b.number = view.sequence
  next : next? view.sequence = some next
  append : ∀ commits, ∃ ledger, Ledger.append r.ledger (b.withSealsOf commits) = .ok ledger
  held : ∀ e ∈ r.held, ¬ view.sequence < e.1

theorem Open.aside (ho : Open r view b told todo s) (ha : Aside s t own) :
    Open r view b told todo t := by
  obtain ⟨gossip, timer, effects, ready, rfl⟩ := ha.same
  obtain ⟨new, hn, hnew⟩ := ha.shown
  obtain ⟨old, ho', hold⟩ := ho.shown
  exact { ho with shown := ⟨new ++ old, by rw [hn, ho', List.append_assoc],
    by rw [Effect.commits_append, hnew, hold]; rfl⟩ }

namespace Accounted

variable {kind : MessageKind} {senders senders' : List Address} {c : Message}

omit [Scheme] in
theorem tell (h : Accounted kind told todo senders) (c : Message) :
    Accounted kind (c :: told) (c :: todo) senders := by
  intro m hm hk
  rcases List.mem_cons.mp hm with rfl | hm
  · exact .inr List.mem_cons_self
  · exact (h m hm hk).imp_right (List.mem_cons_of_mem _)

omit [Scheme] in
theorem of_mem (h : Accounted kind told todo senders) {todo' : List Message}
    (hm : ∀ c, c ∈ todo ↔ c ∈ todo') : Accounted kind told todo' senders :=
  fun c hc hk => (h c hc hk).imp_right (hm c).mp

omit [Scheme] in
theorem process (h : Accounted kind told (c :: todo) senders) (hs : senders ⊆ senders')
    (hc : c.kind = kind → c.sender ∈ senders') : Accounted kind told todo senders' := by
  intro m hm hk
  rcases h m hm hk with hin | hin
  · exact .inl (hs hin)
  · rcases List.mem_cons.mp hin with rfl | hin
    · exact .inl (hc hk)
    · exact .inr hin

end Accounted

theorem Tally.tell {committee : Committee} {a : Attempt} (ht : Tally committee b told todo a)
    (c : Message) : Tally committee b (c :: told) (c :: todo) a :=
  { ht with prepared := ht.prepared.tell c, committed := ht.committed.tell c }

theorem Open.tell (ho : Open r view b told todo s) {c : Message}
    (hc : c.VotesFor r.committee ⟨view, b.hash⟩) : Open r view b (c :: told) (c :: todo) s := by
  obtain ⟨a, ha, hv, ht, hp⟩ := ho.attempt
  exact { ho with
    attempt := ⟨a, ha, hv, ht.tell c, hp⟩
    prepared := fun k hk => List.mem_cons_of_mem _ (ho.prepared k hk)
    committed := fun h k hk => List.mem_cons_of_mem _ (ho.committed h k hk)
    todo := List.forall_mem_cons.mpr ⟨hc, ho.todo⟩ }

theorem Open.of_mem (ho : Open r view b told todo s) (todo' : List Message)
    (hm : ∀ c, c ∈ todo ↔ c ∈ todo') : Open r view b told todo' s := by
  obtain ⟨a, ha, hv, ht, hp⟩ := ho.attempt
  exact { ho with
    attempt := ⟨a, ha, hv,
      { ht with prepared := ht.prepared.of_mem hm, committed := ht.committed.of_mem hm }, hp⟩
    todo := fun c hc => ho.todo c ((hm c).mpr hc) }

theorem Tally.prepare {committee : Committee} {a : Attempt} {c : Message}
    (ht : Tally committee b told (c :: todo) a) (hk : c.kind = .prepare) {prepares : Poll}
    (hq : prepares.committee = a.prepares.committee) (hc : c.sender ∈ prepares.senders)
    (hs : a.prepares.senders ⊆ prepares.senders) {lock : Option Digest}
    (hl : ∀ d ∈ lock, d = b.hash) : Tally committee b told todo { a with prepares, lock } :=
  { ht with
    lock := hl
    prepares := (congrArg Committee.members hq).trans ht.prepares
    prepared := ht.prepared.process hs fun _ => hc
    committed := ht.committed.process (List.Subset.refl _) fun h => by simp [hk] at h }

theorem Tally.commit {committee : Committee} {a : Attempt} {c : Message}
    (ht : Tally committee b told (c :: todo) a) (hk : c.kind = .commit) {commits : Poll}
    (hq : commits.committee = a.commits.committee) (hc : c.sender ∈ commits.senders)
    (hs : a.commits.senders ⊆ commits.senders) (hfew : commits.size < committee.quorum) :
    Tally committee b told todo { a with commits } :=
  { ht with
    commits := (congrArg Committee.members hq).trans ht.commits
    few := hfew
    prepared := ht.prepared.process (List.Subset.refl _) fun h => by simp [hk] at h
    committed := ht.committed.process hs fun _ => hc }

omit [Scheme] in
theorem checkMessage_eq {a : Attempt} (ha : s.attempt = some a) (hw : s.waiting = false)
    {kind : MessageKind} (hk : kind ≠ .roundChange) (hp : s.phase = .newRound → kind = .preprepare) :
    s.checkMessage kind a.view = .ok () := by
  simp only [checkMessage, view?_of_attempt ha, checkView, if_neg hk, if_neg (View.lt_irrefl _), hw,
    Bool.false_eq_true, if_false]
  exact if_neg fun h => h.2 (hp h.1)

theorem checkSubject_eq {a : Attempt} (ha : s.attempt = some a) (hb : a.proposal = some b)
    (hw : s.waiting = false) (hp : s.phase ≠ .newRound) {c : Message} (hk : c.kind ≠ .roundChange)
    (hc : c.subject = .ok ⟨a.view, b.hash⟩) : s.checkSubject c = .ok ⟨a.view, b.hash⟩ := by
  have hcheck : s.checkMessage c.kind a.view = .ok () := checkMessage_eq ha hw hk fun h => absurd h hp
  have hsub : s.attempt.bind (·.subject) = some ⟨a.view, b.hash⟩ := by
    simp [ha, Attempt.subject, hb]
  simp only [Replica.checkSubject, hc, hcheck, hsub, if_true]
  rfl

theorem Open.checkSubject (ho : Open r view b told todo s) {c : Message}
    (hc : c.VotesFor r.committee ⟨view, b.hash⟩) : s.checkSubject c = .ok ⟨view, b.hash⟩ := by
  obtain ⟨a, ha, rfl, ht, -⟩ := ho.attempt
  refine checkSubject_eq ha ht.proposal ho.waiting (fun hn => ?_) ?_ hc.subject
  · rcases ho.phase with hp | hp <;> simp [hn] at hp
  · rcases hc.kind with hk | ⟨hk, -⟩ <;> simp [hk]

theorem lockAndCommit_eq {capacity : Nat} (hb : s.backlog = .empty capacity) {a : Attempt}
    (ha : a.proposal = some b) {c : Message} (hc : Message.commit s.signer ⟨a.view, b.hash⟩ = some c) :
    ∃ timer, s.lockAndCommit a =
      { s with timer, attempt := some { a with lock := some b.hash }, phase := .prepared }.broadcast
        (some c) (.commit ⟨a.view, b.hash⟩) := by
  obtain ⟨timer, ht⟩ := enterPhase_eq (r := { s with attempt := some { a with lock := some b.hash } })
    hb .prepared (by simp)
  refine ⟨timer, ?_⟩
  have hb' : ({ a with lock := some b.hash } : Attempt).proposal = some b := ha
  unfold lockAndCommit
  rw [locked_eq ha, ht]
  simp only [sendCommit, sendCommitFor, Option.bind_some, Attempt.subject, hb', Option.map_some, hc]

section Verdict

variable [Ledger σ]

theorem Closed.aside (hc : Closed r view b next todo s) (ha : Aside s t own) :
    Closed r view b next todo t := by
  obtain ⟨gossip, timer, effects, ready, rfl⟩ := ha.same
  obtain ⟨new, hn, hnew⟩ := ha.shown
  obtain ⟨old, c, ho, hold, hhash, happ⟩ := hc.shown
  exact { hc with shown := ⟨new ++ old, c, by rw [hn, ho, List.append_assoc],
    by rw [Effect.commits_append, hnew, hold]; rfl, hhash, happ⟩ }

inductive Proceeds (r : Replica σ) (view : View) (b : Block) (next : Height) (told todo : List Message)
    (s t : Replica σ) : Prop where
  | count {own told' : List Message} (ht : told ⊆ told') (ho : Open r view b told' (todo ++ own) t)
      (ha : t.agenda = s.agenda ++ own)
  | decide (hc : Closed r view b next todo t) (ha : t.agenda = s.agenda)

theorem Proceeds.keep (ho : Open r view b told todo t) (ha : t.agenda = s.agenda) :
    Proceeds r view b next told todo s t :=
  .count (List.Subset.refl _) ((List.append_nil todo).symm ▸ ho) (ha.trans (List.append_nil _).symm)

theorem Open.handlePrepare {c : Message} (hr : Able r view b next)
    (ho : Open r view b told (c :: todo) s) (hk : c.kind = .prepare) :
    (s.handlePrepare c).1 = .ok () ∧ Proceeds r view b next told todo s (s.handlePrepare c).2 := by
  have hc := ho.todo c List.mem_cons_self
  have htodo : ∀ m ∈ todo, m.VotesFor r.committee ⟨view, b.hash⟩ :=
    fun m hm => ho.todo m (List.mem_cons_of_mem _ hm)
  obtain ⟨a, ha, rfl, ht, hp⟩ := ho.attempt
  obtain ⟨prepares, hadd, hcom, hmem, hsub⟩ :=
    Poll.add_member (p := a.prepares) (m := c) (by rw [ht.prepares]; exact hc.member)
  have heq : s.handlePrepare c =
      if (a.lock = some b.hash ∨ s.committee.quorum ≤ Attempt.supporters { a with prepares }) ∧
        s.phase < .prepared then
        (.ok (), { s with attempt := some { a with prepares } }.lockAndCommit { a with prepares })
      else (.ok (), { s with attempt := some { a with prepares } }) := by
    simp only [Replica.handlePrepare, ho.checkSubject hc, ha, hadd]
  rw [heq]
  split
  · obtain ⟨k, hk'⟩ := hr.commit
    have hvote := Message.votesFor_commit hr.honest hr.member hk'
    obtain ⟨timer, hlock⟩ := lockAndCommit_eq (s := { s with attempt := some { a with prepares } })
      (a := { a with prepares }) (c := k) ho.backlog ht.proposal (by rw [ho.signer]; exact hk')
    rw [hlock]
    have haside := broadcast_aside { s with
      timer, attempt := some { a with prepares, lock := some b.hash }, phase := .prepared } k
      (.commit ⟨a.view, b.hash⟩)
    have hopen : Open r a.view b (k :: told) (k :: todo) { s with
        timer, attempt := some { a with prepares, lock := some b.hash }, phase := .prepared } :=
      { ho with
        phase := .inr rfl
        attempt := ⟨_, rfl, rfl, (ht.prepare hk hcom hmem hsub (by simp)).tell k, fun h => by cases h⟩
        prepared := fun m hm => List.mem_cons_of_mem _ (ho.prepared m hm)
        committed := fun _ m hm => by
          rw [hk'] at hm
          exact Option.some.inj hm ▸ List.mem_cons_self
        todo := List.forall_mem_cons.mpr ⟨hvote, htodo⟩ }
    have hall (m : Message) : m ∈ k :: todo ↔ m ∈ todo ++ [k] := by simp [or_comm]
    exact ⟨rfl, .count (List.subset_cons_self _ _) ((hopen.of_mem _ hall).aside haside) haside.agenda⟩
  · rename_i hq
    refine ⟨rfl, .keep ?_ rfl⟩
    exact { ho with
      attempt := by
        refine ⟨_, rfl, rfl, ht.prepare hk hcom hmem hsub ht.lock, fun hphase => ?_⟩
        have hlt : s.phase < .prepared := by rw [show s.phase = _ from hphase]; decide
        refine Nat.lt_of_le_of_lt (Attempt.size_le_supporters { a with prepares }) ?_
        exact Nat.lt_of_not_le fun h => hq ⟨.inr (by rw [ho.committee]; exact h), hlt⟩
      todo := htodo }

theorem refreshCommittee_eq (r : Replica σ) (head : Header) :
    ∃ archive committee new, r.refreshCommittee head =
      { r with archive, committee, effects := new ++ r.effects } ∧ Effect.commits new = [] := by
  unfold refreshCommittee
  rcases r.archive.snapshot r.ledger head.number head.hash with ⟨e | snap, archive⟩
  · exact ⟨_, _, [], rfl, rfl⟩
  · dsimp only
    split
    · exact ⟨_, _, [], rfl, rfl⟩
    · exact ⟨_, _, [_], rfl, rfl⟩

omit [Ledger σ] in
theorem takeHeld_eq (hv : s.view? = some view) (hh : ∀ e ∈ s.held, e.1 < view.sequence) :
    s.takeHeld = { s with held := [] } := by
  unfold takeHeld
  simp only [hv]
  rw [List.filter_eq_nil_iff.mpr ?_]
  · rfl
  · intro e he
    simpa using hh e he

omit [Ledger σ] in
theorem enterView_eq {capacity : Nat} (hb : s.backlog = .empty capacity) {a : Attempt}
    (hh : ∀ e ∈ s.held, e.1 < a.view.sequence) (head : Header) :
    ∃ timer roundChanges committee, s.enterView head a =
      { s with
        timer, roundChanges, committee
        attempt := some a
        waiting := false
        phase := .newRound
        held := [] } := by
  obtain ⟨timer, ht⟩ := extendTime_eq { s with
    roundChanges := .empty a.view.sequence s.committee
    attempt := some a
    committee := s.committee.choose (lastProposer head) a.view.round
    waiting := false } .newRound
  refine ⟨timer, .empty a.view.sequence s.committee,
    s.committee.choose (lastProposer head) a.view.round, ?_⟩
  unfold enterView enterPhase
  dsimp only
  rw [if_pos rfl, ht]
  have htake := takeHeld_eq (s := { s with
    timer
    roundChanges := .empty a.view.sequence s.committee
    attempt := some a
    committee := s.committee.choose (lastProposer head) a.view.round
    waiting := false
    phase := .newRound }) rfl hh
  exact (congrArg replay htake).trans (replay_eq hb)

theorem startRound_eq {capacity : Nat} (hb : s.backlog = .empty capacity) {a : Attempt}
    (ha : s.attempt = some a) (hv : a.view.sequence = (Ledger.head s.ledger).number)
    (hn : next? a.view.sequence = some next) (hh : ∀ e ∈ s.held, ¬ a.view.sequence < e.1) :
    (s.startRound 0).started = s.started ∧ (s.startRound 0).view? = some ⟨next, 0⟩ ∧
      (s.startRound 0).waiting = false ∧ (s.startRound 0).phase = .newRound ∧
      (s.startRound 0).ledger = s.ledger ∧ (s.startRound 0).agenda = s.agenda ∧
      ∃ new, (s.startRound 0).effects = new ++ s.effects ∧ Effect.commits new = [] := by
  have hlt : a.view.sequence < next :=
    UInt64.lt_iff_toNat_lt.mpr (by have := toNat_of_next? hn; omega)
  have hheld : ∀ e ∈ s.held, e.1 < next :=
    fun e he => UInt64.lt_of_le_of_lt (UInt64.not_lt.mp (hh e he)) hlt
  have heq : s.startRound 0 = s.startSequence (Ledger.head s.ledger) next := by
    simp only [startRound, ← hv, hn, ha]
    exact if_pos (UInt64.le_refl _)
  obtain ⟨archive, committee, new, href, hnew⟩ := refreshCommittee_eq s (Ledger.head s.ledger)
  obtain ⟨timer, roundChanges, committee', hview⟩ := enterView_eq
    (s := { s with archive, committee, effects := new ++ s.effects })
    (a := .start ⟨next, 0⟩ committee) hb hheld (Ledger.head s.ledger)
  rw [heq]
  simp only [startSequence, href, hview]
  exact ⟨rfl, rfl, rfl, rfl, rfl, rfl, _ :: new, rfl, hnew⟩

theorem commit_ok {capacity : Nat} (hb : s.backlog = .empty capacity) {a : Attempt}
    (ha : s.attempt = some a) (hp : a.proposal = some b) {ledger : σ}
    (hl : Ledger.append s.ledger (b.withSealsOf a.commits) = .ok ledger) :
    ∃ timer notice, s.commit = (.ok (), { s with
      timer
      phase := .committed
      ledger
      effects := .notify notice :: .commit (b.withSealsOf a.commits) :: s.effects }.startRound 0) := by
  obtain ⟨timer, ht⟩ := enterPhase_eq hb .committed (by simp)
  refine ⟨timer, .finalCommitted (b.withSealsOf a.commits).hash (b.withSealsOf a.commits).number
    (b.withSealsOf a.commits).header.extra.committedSeals.length, ?_⟩
  simp only [Replica.commit, ht, ha, hp]
  simp only [emit, show Ledger.append s.ledger { b with header := { b.header with extra :=
    { b.header.extra with committedSeals := a.commits.messages.filterMap (·.committedSeal) } } } =
      .ok ledger from hl]
  rfl

variable [LawfulLedger σ]

theorem Open.decide (hr : Able r view b next) (ho : Open r view b told todo s) {a : Attempt}
    (hp : a.proposal = some b) (hv : a.view = view) :
    ({ s with attempt := some a } : Replica σ).commit.1 = .ok () ∧
      Closed r view b next todo ({ s with attempt := some a } : Replica σ).commit.2 ∧
      ({ s with attempt := some a } : Replica σ).commit.2.agenda = s.agenda := by
  subst hv
  obtain ⟨ledger, hledger⟩ := hr.append a.commits
  obtain ⟨timer, notice, hcommit⟩ := commit_ok (s := { s with attempt := some a }) ho.backlog rfl hp
    (by rw [ho.ledger]; exact hledger)
  have hhead : Ledger.head ledger = (b.withSealsOf a.commits).header :=
    LawfulLedger.head_of_cons (LawfulLedger.appended hledger)
  obtain ⟨hs, hview, hw, hph, hl, hag, new, hnew, hnone⟩ := startRound_eq
    (s := { s with
      timer
      phase := .committed
      ledger
      attempt := some a
      effects := .notify notice :: .commit (b.withSealsOf a.commits) :: s.effects })
    ho.backlog rfl (by rw [hhead]; exact hr.number.symm) hr.next (by rw [ho.held]; exact hr.held)
  obtain ⟨old, hold, hnil⟩ := ho.shown
  rw [hcommit]
  refine ⟨rfl, ⟨hs.trans ho.started, hview, hw, hph, ho.todo, ?_⟩, hag⟩
  refine ⟨new ++ (.notify notice :: .commit (b.withSealsOf a.commits) :: old),
    b.withSealsOf a.commits, ?_, ?_, rfl, ?_⟩
  · rw [hnew]
    simp [hold]
  · rw [Effect.commits_append, hnone]
    simpa [Effect.commits] using hnil
  · rw [hl]
    exact hledger

theorem Open.handleCommit {c : Message} (hr : Able r view b next)
    (ho : Open r view b told (c :: todo) s) (hk : c.kind = .commit) :
    (s.handleCommit c).1 = .ok () ∧ Proceeds r view b next told todo s (s.handleCommit c).2 := by
  have hc := ho.todo c List.mem_cons_self
  have htodo : ∀ m ∈ todo, m.VotesFor r.committee ⟨view, b.hash⟩ :=
    fun m hm => ho.todo m (List.mem_cons_of_mem _ hm)
  have hseal : c.verifyCommittedSeal b.hash = .ok () := by
    rcases hc.kind with h | ⟨-, h⟩
    · rw [hk] at h
      cases h
    · exact h
  obtain ⟨a, ha, rfl, ht, hp⟩ := ho.attempt
  obtain ⟨commits, hadd, hcom, hmem, hsub⟩ :=
    Poll.add_member (p := a.commits) (m := c) (by rw [ht.commits]; exact hc.member)
  have heq : s.handleCommit c =
      if s.committee.quorum ≤ commits.size ∧ s.phase < .committed then
        { s with attempt := some { a with commits, lock := some b.hash } }.commit
      else (.ok (), { s with attempt := some { a with commits } }) := by
    simp only [Replica.handleCommit, ho.checkSubject hc, ha, hseal, hadd]
    rw [locked_eq (a := { a with commits }) ht.proposal]
  rw [heq]
  split
  · obtain ⟨hok, hclosed, hagenda⟩ :=
      ho.decide hr (a := { a with commits, lock := some b.hash }) ht.proposal rfl
    exact ⟨hok, .decide { hclosed with todo := htodo } hagenda⟩
  · rename_i hq
    refine ⟨rfl, .keep ?_ rfl⟩
    have hlt : s.phase < .committed := by
      rcases ho.phase with h | h <;> rw [h] <;> decide
    have hfew : commits.size < r.committee.quorum :=
      Nat.lt_of_not_le fun h => hq ⟨by rw [ho.committee]; exact h, hlt⟩
    exact { ho with
      attempt := ⟨_, rfl, rfl, ht.commit hk hcom hmem hsub hfew, hp⟩
      todo := htodo }

omit [LawfulLedger σ] in
theorem Proceeds.aside (hp : Proceeds r view b next told todo s t) {u : Replica σ}
    (ha : Aside t u []) : Proceeds r view b next told todo s u := by
  have hagenda : u.agenda = t.agenda := ha.agenda.trans (List.append_nil _)
  cases hp with
  | count ht ho hown => exact .count ht (ho.aside ha) (hagenda.trans hown)
  | decide hc hsame => exact .decide (hc.aside ha) (hagenda.trans hsame)

theorem Open.receive {d : Delivery} (hr : Able r view b next)
    (ho : Open r view b told (d.message :: todo) s) :
    Proceeds r view b next told todo s (s.receive d) := by
  have hc := ho.todo d.message List.mem_cons_self
  have hmember : d.message.sender ∈ s.committee.members := ho.committee ▸ hc.member
  have hprocess : (s.process d.message).1 = .ok () ∧
      Proceeds r view b next told todo s (s.process d.message).2 := by
    rw [process_eq hc.verified hmember]
    rcases hc.kind with hk | ⟨hk, -⟩
    · simp only [hk]
      exact ho.handlePrepare hr hk
    · simp only [hk]
      exact ho.handleCommit hr hk
  obtain ⟨hok, hp⟩ := hprocess
  have heq : s.process d.message = (.ok (), (s.process d.message).2) := Prod.ext hok rfl
  unfold Replica.receive
  rw [heq]
  dsimp only
  split
  · exact hp
  · exact hp.aside (relay_aside _ _)

omit [LawfulLedger σ] in
theorem Closed.receive {d : Delivery} (hr : Able r view b next)
    (hc : Closed r view b next (d.message :: todo) s) :
    Closed r view b next todo (s.receive d) ∧ (s.receive d).agenda = s.agenda := by
  have hvote := hc.todo d.message List.mem_cons_self
  have hnext : view.sequence < next :=
    UInt64.lt_iff_toNat_lt.mpr (by have := toNat_of_next? hr.next; omega)
  have hlt : view < ⟨next, 0⟩ := .inl hnext
  have hold : s.checkMessage d.message.kind view = .error .oldMessage := by
    have hk : d.message.kind ≠ .roundChange := by
      rcases hvote.kind with h | ⟨h, -⟩ <;> simp [h]
    simp only [checkMessage, hc.entered, checkView, if_neg hk, if_pos hlt]
    exact if_neg fun h => View.lt_irrefl _ (View.lt_trans h hlt)
  have hcheck : s.checkSubject d.message = .error .oldMessage := by
    simp only [checkSubject, hvote.subject, hold]
    rfl
  obtain ⟨e, he, hprocess⟩ : ∃ e, e ≠ .futureMessage ∧ s.process d.message = (.error e, s) := by
    unfold process
    simp only [hvote.verified]
    split
    · exact ⟨.unauthorizedAddress, by simp, rfl⟩
    · refine ⟨.oldMessage, by simp, ?_⟩
      rcases hvote.kind with hk | ⟨hk, -⟩
      · simp only [hk, handlePrepare, hcheck]
      · simp only [hk, handleCommit, hcheck]
  have haside := drop_aside s d.message e
  rw [(receive_error hprocess).resolve_right fun h => he h.1]
  exact ⟨Closed.aside { hc with todo := fun c hm => hc.todo c (List.mem_cons_of_mem _ hm) } haside,
    haside.agenda.trans (List.append_nil _)⟩

def Tallies (r : Replica σ) (view : View) (b : Block) (next : Height) (told : List Message)
    (s : Replica σ) : Prop :=
  (∃ told', told ⊆ told' ∧ Open r view b told' s.agenda s) ∨ Closed r view b next s.agenda s

theorem Open.tallies {d : Delivery} (hr : Able r view b next) {told' : List Message}
    (ht : told ⊆ told') (ho : Open r view b told' (d.message :: s.agenda) s) :
    Tallies r view b next told (s.receive d) := by
  cases ho.receive hr with
  | count ht' ho' ha => exact .inl ⟨_, List.Subset.trans ht ht', ha ▸ ho'⟩
  | decide hc ha => exact .inr (ha ▸ hc)

theorem Tallies.advance (hr : Able r view b next) (hc : Tallies r view b next told s)
    (ha : s.advance = some t) : Tallies r view b next told t := by
  obtain ⟨d, ready, -, hready, rfl⟩ := advance_eq_some ha
  have hagenda : s.agenda = d.message :: { s with ready }.agenda := by simp [agenda, hready]
  rcases hc with ⟨told', ht, ho⟩ | hc
  · rw [hagenda] at ho
    have ho : Open r view b told' (d.message :: { s with ready }.agenda) { s with ready } := { ho with }
    exact ho.tallies hr ht
  · rw [hagenda] at hc
    have hc : Closed r view b next (d.message :: { s with ready }.agenda) { s with ready } :=
      { hc with }
    obtain ⟨hc, hsame⟩ := hc.receive hr
    exact .inr (hsame ▸ hc)

omit [LawfulLedger σ] in
theorem Tallies.started (hc : Tallies r view b next told s) : s.started = true := by
  rcases hc with ⟨told', -, ho⟩ | hc
  · exact ho.started
  · exact hc.started

theorem Tallies.handle {d : Delivery} (hr : Able r view b next) (hc : Tallies r view b next told s)
    (hd : d.message.VotesFor r.committee ⟨view, b.hash⟩) :
    Tallies r view b next (d.message :: told) (s.handle (.message d)) := by
  have hreceive : Tallies r view b next (d.message :: told) (s.receive d) := by
    rcases hc with ⟨told', ht, ho⟩ | hc
    · exact (ho.tell hd).tallies hr (List.cons_subset_cons _ ht)
    · have hc : Closed r view b next (d.message :: s.agenda) s :=
        { hc with todo := List.forall_mem_cons.mpr ⟨hd, hc.todo⟩ }
      obtain ⟨hc, hsame⟩ := hc.receive hr
      exact .inr (hsame ▸ hc)
  simp only [Replica.handle, hc.started, if_true, dispatch]
  exact settle_keep (fun s t h ha => h.advance hr ha) _ hreceive

omit [LawfulLedger σ] in
theorem Tallies.closed {members : List Address} (hr : Able r view b next)
    (hc : Tallies r view b next told s) (hready : s.ready = []) (hn : members.Nodup)
    (hown : r.signer.address ∉ members) (hq : r.committee.quorum ≤ members.length + 1)
    (hp : ∀ a ∈ members, ∃ c ∈ told, c.kind = .prepare ∧ c.sender = a)
    (hcom : ∀ a ∈ members, ∃ c ∈ told, c.kind = .commit ∧ c.sender = a) :
    Closed r view b next [] s := by
  have hagenda : s.agenda = [] := by simp [agenda, hready]
  have hall : (r.signer.address :: members).Nodup := List.nodup_cons.mpr ⟨hown, hn⟩
  have hquorum {poll : Poll} (h : ∀ a ∈ r.signer.address :: members, a ∈ poll.senders) :
      r.committee.quorum ≤ poll.size := by
    have hle := (List.subperm_of_subset hall h).length_le
    rw [List.length_cons, Poll.senders, List.length_map] at hle
    exact hq.trans hle
  rcases hc with ⟨told', ht, ho⟩ | hc
  · exfalso
    rw [hagenda] at ho
    obtain ⟨a, -, -, htally, hshort⟩ := ho.attempt
    obtain ⟨own, hprepare⟩ := hr.prepare
    obtain ⟨own', hcommit⟩ := hr.commit
    -- every vote has been counted by now, so the replica cannot still be counting
    have hphase : s.phase = .prepared := by
      refine ho.phase.resolve_left fun hphase => Nat.not_le_of_lt (hshort hphase) (hquorum ?_)
      refine List.forall_mem_cons.mpr ⟨?_, fun x hx => ?_⟩
      · rw [← (Message.signed_spec hprepare).2.2]
        exact (htally.prepared own (ho.prepared own hprepare)
          (Message.prepare_spec hprepare).1).resolve_right (by simp)
      · obtain ⟨c, hc, hk, rfl⟩ := hp x hx
        exact (htally.prepared c (ht hc) hk).resolve_right (by simp)
    refine Nat.not_le_of_lt htally.few (hquorum (List.forall_mem_cons.mpr ⟨?_, fun x hx => ?_⟩))
    · rw [← (Message.commit_spec hcommit).2.2]
      exact (htally.committed own' (ho.committed hphase own' hcommit)
        (Message.commit_spec hcommit).1).resolve_right (by simp)
    · obtain ⟨c, hc, hk, rfl⟩ := hcom x hx
      exact (htally.committed c (ht hc) hk).resolve_right (by simp)
  · exact hagenda ▸ hc

end Verdict

end Replica

end BlockAgreement
