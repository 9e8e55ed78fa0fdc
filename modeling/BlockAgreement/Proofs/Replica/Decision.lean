import BlockAgreement.Proofs.Replica.Counting

/-!
# Any order of the messages decides

A replica that waits for the proposal of its view keeps the votes that come before it, and processes
them with the proposal. So the proposal and a quorum of votes for it, in whatever order they are
delivered, make the replica hand the block to its ledger, once, and go on to the next height.
-/

set_option autoImplicit false

namespace BlockAgreement

namespace Backlog

theorem drain_all {b : Backlog} {classify : View → MessageKind → Disposition}
    (h : ∀ q ∈ b.queues, ∀ d ∈ q.2, classify q.1.view d.message.kind = .process) :
    b.drain classify = (b.toList.map (·.2), .empty b.capacity) := by
  have hready : (b.toList.filter fun e => classify e.1 e.2.message.kind = .process) = b.toList := by
    rw [List.filter_eq_self]
    intro e he
    obtain ⟨q, hq, hm⟩ := List.mem_flatMap.mp he
    obtain ⟨d, hd, hde⟩ := List.mem_map.mp hm
    cases hde
    exact decide_eq_true (h q hq d hd)
  have hqueues : ((b.queues.map fun q => (q.1, q.2.filter fun d =>
      classify q.1.view d.message.kind = .keep)).filter fun q => !q.2.isEmpty) = [] := by
    rw [List.filter_eq_nil_iff]
    intro e he
    obtain ⟨q, hq, rfl⟩ := List.mem_map.mp he
    have hnil : q.2.filter (fun d => classify q.1.view d.message.kind = .keep) = [] := by
      rw [List.filter_eq_nil_iff]
      intro d hd
      simp [h q hq d hd]
    simp [hnil]
  refine Prod.ext (congrArg (List.map fun e : View × Delivery => e.2) hready) ?_
  exact congrArg (fun queues : SortedMap Slot (List Delivery) =>
    ({ b with queues, size := (queues.flatMap (·.2)).length } : Backlog)) hqueues

theorem messages_toList (b : Backlog) : b.toList.map (·.2.message) = b.messages := by
  simp [toList, messages, List.map_flatMap, Function.comp_def]

end Backlog

namespace Replica

variable {σ : Type} [Scheme] [Ledger σ] {r s : Replica σ} {view : View} {next : Height} {b : Block}
  {told : List Delivery} {d p : Delivery}

/-- The replica waits for the proposal of the view. Nothing is locked, and nothing else waits. -/
structure Vacant (r : Replica σ) (view : View) : Prop where
  started : r.started = true
  waiting : r.waiting = false
  phase : r.phase = .newRound
  attempt : ∃ a, r.attempt = some a ∧ a.view = view ∧ a.lock = none
  backlog : r.backlog = .empty r.backlog.capacity

/-- The message is the proposal of a valid block, from the proposer of the view. -/
structure Proposes (r : Replica σ) (view : View) (b : Block) (m : Message) : Prop where
  verified : m.verify = .ok ()
  kind : m.kind = .preprepare
  body : m.preprepare = .ok ⟨view, b⟩
  proposer : r.committee.isProposer m.sender = true
  other : m.sender ≠ r.signer.address
  valid : (r.verifyProposal b).1 = .ok ()

structure Keeping (view : View) (told : List Delivery) (backlog : Backlog) : Prop where
  size : backlog.size = told.length
  ordered : backlog.Ordered
  messages : backlog.messages.Perm (told.map (·.message))
  slots : ∀ q ∈ backlog.queues, q.1.view = view

omit [Scheme] [Ledger σ] in
theorem keeping_empty (view : View) (capacity : Nat) : Keeping view [] (.empty capacity) :=
  ⟨rfl, Backlog.empty_ordered capacity, .refl _, by simp [Backlog.empty]⟩

omit [Scheme] [Ledger σ] in
theorem Keeping.push {backlog : Backlog} (hk : Keeping view told backlog) (d : Delivery) :
    Keeping view (d :: told) (backlog.push (.of view d.message.kind) d) where
  size := congrArg (· + 1) hk.size
  ordered := hk.ordered.push _ d
  messages := (hk.ordered.perm_push _ d).trans (hk.messages.cons _)
  slots q hq := by
    rcases SortedMap.mem_insert hq with rfl | hq
    · rfl
    · exact hk.slots q hq

theorem Vacant.keep (hv : Vacant r view) (hready : r.ready = []) {backlog : Backlog}
    (hk : Keeping view told backlog) (hc : backlog.capacity = r.backlog.capacity)
    (hroom : told.length < r.backlog.capacity) (hd : d.message.VotesFor r.committee ⟨view, b.hash⟩)
    (hother : d.message.sender ≠ r.signer.address) :
    ({ r with backlog } : Replica σ).handle (.message d) =
      { r with backlog := backlog.push (.of view d.message.kind) d } := by
  obtain ⟨a, ha, rfl, -⟩ := hv.attempt
  have hfuture : ({ r with backlog } : Replica σ).checkSubject d.message = .error .futureMessage := by
    have hk : d.message.kind ≠ .roundChange ∧ d.message.kind ≠ .preprepare := by
      rcases hd.kind with h | ⟨h, -⟩ <;> simp [h]
    simp [checkSubject, hd.subject, checkMessage, view?, ha, checkView, hk.1, hk.2, hv.waiting,
      hv.phase, View.lt_irrefl]
    rfl
  have hprocess : ({ r with backlog } : Replica σ).process d.message =
      (.error .futureMessage, { r with backlog }) := by
    rw [process_eq (r := { r with backlog }) hd.verified hd.member]
    rcases hd.kind with h | ⟨h, -⟩
    · simp only [h, handlePrepare, hfuture]
    · simp only [h, handleCommit, hfuture]
  have hins : backlog.insert a.view d = (true, backlog.push (.of a.view d.message.kind) d) := by
    unfold Backlog.insert
    exact if_pos (by rw [hk.size, hc]; exact hroom)
  have hreceive : ({ r with backlog } : Replica σ).receive d =
      { r with backlog := backlog.push (.of a.view d.message.kind) d } := by
    have hview := Message.view_of_subject hd.subject
    simp only [receive, hprocess, hother, postpone, hview, hins]
    rfl
  rw [handle, if_pos hv.started, dispatch, hreceive]
  exact settled_eq hready

omit [Scheme] [Ledger σ] in
theorem replay_keeping {backlog : Backlog} (hk : Keeping view told backlog) (hb : s.backlog = backlog)
    (hv : s.view? = some view) (hw : s.waiting = false) (hp : s.phase = .preprepared)
    (hkind : ∀ c ∈ told, c.message.kind ≠ .roundChange) :
    s.replay = { s with
      backlog := .empty backlog.capacity
      ready := s.ready ++ backlog.toList.map (·.2) } := by
  have hall : ∀ q ∈ backlog.queues, ∀ d ∈ q.2,
      disposition view s.waiting s.phase q.1.view d.message.kind = .process := by
    intro q hq d hd
    obtain ⟨c, hc, he⟩ := List.mem_map.mp
      (hk.messages.subset (Backlog.mem_messages.mpr ⟨q, hq, d, hd, rfl⟩))
    have hkind : d.message.kind ≠ .roundChange := he ▸ hkind c hc
    simp [disposition, checkView, hk.slots q hq, hw, hp, hkind, View.lt_irrefl]
  unfold replay
  simp only [hv, hb, Backlog.drain_all hall]

omit [Ledger σ] in
theorem enterPhase_keeping {backlog : Backlog} (hk : Keeping view told backlog)
    (hb : s.backlog = backlog) (hv : s.view? = some view) (hw : s.waiting = false)
    (hkind : ∀ c ∈ told, c.message.kind ≠ .roundChange) :
    ∃ timer, s.enterPhase .preprepared = { s with
      timer
      phase := .preprepared
      backlog := .empty backlog.capacity
      ready := s.ready ++ backlog.toList.map (·.2) } := by
  obtain ⟨timer, ht⟩ := extendTime_eq s .preprepared
  refine ⟨timer, ?_⟩
  unfold enterPhase
  dsimp only
  rw [if_neg (by simp), ht]
  exact replay_keeping (s := { s with timer, phase := .preprepared }) hk hb hv hw rfl hkind

theorem verifyProposal_backlog (r : Replica σ) (backlog : Backlog) (b : Block) :
    ({ r with backlog } : Replica σ).verifyProposal b =
      ((r.verifyProposal b).1, { (r.verifyProposal b).2 with backlog }) := by
  unfold verifyProposal
  rw [show ({ r with backlog } : Replica σ).view? = r.view? from rfl]
  split
  · rfl
  · dsimp only
    split <;> rfl

theorem Proposes.backlog {m : Message} (hp : Proposes r view b m) (backlog : Backlog) :
    Proposes { r with backlog } view b m :=
  { hp with valid := by rw [verifyProposal_backlog]; exact hp.valid }

theorem Proposes.process {m : Message} {a : Attempt} (hp : Proposes s a.view b m)
    (ha : s.attempt = some a) (hw : s.waiting = false) (hphase : s.phase = .newRound)
    (hl : a.lock = none) :
    ∃ archive, s.process m = (.ok (),
      ({ s with archive, attempt := some { a with preprepare := some ⟨a.view, b⟩ } }.enterPhase
        .preprepared).sendPrepare) := by
  obtain ⟨archive, hs, -⟩ := verifyProposal_spec s b
  have hverify : s.verifyProposal b = (.ok (), { s with archive }) := Prod.ext hp.valid hs
  have hcheck : s.checkMessage .preprepare a.view = .ok () :=
    checkMessage_eq ha hw (by simp) fun _ => rfl
  have hmember : m.sender ∈ s.committee.members :=
    s.committee.proposer_mem _ (beq_iff_eq.mp hp.proposer)
  refine ⟨archive, ?_⟩
  rw [process_eq hp.verified hmember]
  simp only [hp.kind, handlePreprepare, hp.body, hcheck, hp.proposer, Bool.not_true, Bool.false_eq_true,
    if_false, hverify, if_pos hphase]
  rw [acceptProposal_eq (r := { s with archive }) ha, if_pos hl]

def accepted (r : Replica σ) (a : Attempt) (b : Block) (archive : Archive) (timer : Timer)
    (backlog : Backlog) : Replica σ :=
  { r with
    archive, timer
    phase := .preprepared
    attempt := some { a with preprepare := some ⟨a.view, b⟩ }
    backlog := .empty backlog.capacity
    ready := r.ready ++ backlog.toList.map (·.2) }

omit [Scheme] [Ledger σ] in
theorem accepted_agenda (r : Replica σ) (a : Attempt) (b : Block) (archive : Archive) (timer : Timer)
    (backlog : Backlog) :
    (r.accepted a b archive timer backlog).agenda = r.agenda ++ backlog.messages := by
  simp only [agenda, accepted, List.map_append, List.map_map, ← Backlog.messages_toList]
  rfl

theorem Proposes.receive {a : Attempt} {own : Message} (hp : Proposes r a.view b p.message)
    (ha : r.attempt = some a) (hw : r.waiting = false) (hphase : r.phase = .newRound)
    (hl : a.lock = none) {backlog : Backlog} (hk : Keeping a.view told backlog)
    (hkind : ∀ d ∈ told, d.message.kind ≠ .roundChange)
    (hown : Message.prepare r.signer ⟨a.view, b.hash⟩ = some own) :
    ∃ archive timer, ({ r with backlog } : Replica σ).receive p =
      ((r.accepted a b archive timer backlog).broadcast (some own) (.prepare ⟨a.view, b.hash⟩)).relay
        p.payload := by
  obtain ⟨archive, hprocess⟩ := (hp.backlog backlog).process ha hw hphase hl
  obtain ⟨timer, henter⟩ := enterPhase_keeping (s := { r with
    backlog, archive, attempt := some { a with preprepare := some ⟨a.view, b⟩ } }) hk rfl rfl hw hkind
  have hsend : (r.accepted a b archive timer backlog).sendPrepare =
      (r.accepted a b archive timer backlog).broadcast (some own) (.prepare ⟨a.view, b.hash⟩) := by
    simp only [sendPrepare, accepted, Option.bind_some, Attempt.subject, Attempt.proposal,
      Option.map_some, hown]
  refine ⟨archive, timer, ?_⟩
  unfold Replica.receive
  simp only [hprocess, henter, hp.other, decide_false, Bool.false_eq_true, if_false]
  exact congrArg (·.relay p.payload) hsend

theorem Vacant.open (hr : Able r view b next) (hv : Vacant r view) {a : Attempt}
    (hview : a.view = view) (hl : a.lock = none) (hfit : r.stance.Fits (fun _ => True) a)
    (hback : r.stance.Backs (fun _ => True) a) (archive : Archive) (timer : Timer)
    {backlog : Backlog} (hc : backlog.capacity = r.backlog.capacity) {own : Message}
    (hown : Message.prepare r.signer ⟨view, b.hash⟩ = some own)
    (htold : ∀ d ∈ told, d.message.VotesFor r.committee ⟨view, b.hash⟩) :
    Open r view b (own :: told.map (·.message)) (own :: told.map (·.message))
      (r.accepted a b archive timer backlog) := by
  subst hview
  have hzero (poll : Poll) (h : poll.messages = []) : poll.size < r.committee.quorum :=
    Poll.size_eq_zero h ▸ quorum_pos r
  have hblank : r.stance.waiting = true ∨ r.stance.phase = .newRound := .inr hv.phase
  exact {
    started := hv.started
    signer := rfl
    ledger := rfl
    committee := rfl
    held := rfl
    backlog := congrArg Backlog.empty hc
    waiting := hv.waiting
    phase := .inl rfl
    attempt := ⟨_, rfl, rfl, {
      proposal := rfl
      lock := by simp [hl]
      prepares := hback.committee
      commits := hfit.committee
      few := hzero _ (hfit.blank hblank)
      prepared := fun c hc _ => .inr hc
      committed := fun c hc _ => .inr hc }, fun _ => hzero _ (hback.blank hblank)⟩
    prepared := fun c hc => by
      rw [hown] at hc
      exact Option.some.inj hc ▸ List.mem_cons_self
    committed := fun h => by cases h
    todo := by
      refine List.forall_mem_cons.mpr ⟨Message.votesFor_prepare hr.honest hr.member hown, ?_⟩
      rintro c hc
      obtain ⟨d, hd, rfl⟩ := List.mem_map.mp hc
      exact htold d hd
    shown := ⟨[], rfl, rfl⟩ }

theorem Vacant.accept (hr : Able r view b next) (hv : Vacant r view) (hready : r.ready = [])
    (hfits : ∀ a ∈ r.attempt, r.stance.Fits (fun _ => True) a ∧ r.stance.Backs (fun _ => True) a)
    {backlog : Backlog} (hk : Keeping view told backlog)
    (hc : backlog.capacity = r.backlog.capacity) (hp : Proposes r view b p.message)
    (htold : ∀ d ∈ told, d.message.VotesFor r.committee ⟨view, b.hash⟩) :
    Tallies r view b next (told.map (·.message)) (({ r with backlog } : Replica σ).receive p) := by
  obtain ⟨a, ha, rfl, hl⟩ := hv.attempt
  obtain ⟨hfit, hback⟩ := hfits a ha
  obtain ⟨own, hown⟩ := hr.prepare
  have hkind : ∀ d ∈ told, d.message.kind ≠ .roundChange := by
    intro d hd
    rcases (htold d hd).kind with h | ⟨h, -⟩ <;> simp [h]
  obtain ⟨archive, timer, hreceive⟩ := hp.receive ha hv.waiting hv.phase hl hk hkind hown
  have haside := (broadcast_aside (r.accepted a b archive timer backlog) own
    (.prepare ⟨a.view, b.hash⟩)).trans (relay_aside _ p.payload)
  have hopen := hv.open hr rfl hl hfit hback archive timer hc hown htold
  have hagenda : (r.accepted a b archive timer backlog).agenda = backlog.messages := by
    rw [accepted_agenda, agenda, hready, List.map_nil, List.nil_append]
  rw [hreceive]
  refine .inl ⟨own :: told.map (·.message), List.subset_cons_self _ _, ?_⟩
  rw [haside.agenda, hagenda]
  refine Open.aside (hopen.of_mem _ fun c => ?_) haside
  rw [List.mem_cons, List.mem_append, List.mem_append, hk.messages.mem_iff]
  simp [or_comm]

def handleAll (r : Replica σ) (ds : List Delivery) : Replica σ :=
  ds.foldl (fun r d => r.handle (.message d)) r

theorem Vacant.keep_all (hv : Vacant r view) (hready : r.ready = []) {ds : List Delivery}
    (hds : ∀ d ∈ ds, d.message.VotesFor r.committee ⟨view, b.hash⟩ ∧
      d.message.sender ≠ r.signer.address)
    {backlog : Backlog} (hk : Keeping view told backlog)
    (hc : backlog.capacity = r.backlog.capacity)
    (hroom : told.length + ds.length ≤ r.backlog.capacity) :
    ∃ backlog', Keeping view (ds.reverse ++ told) backlog' ∧
      backlog'.capacity = r.backlog.capacity ∧
      ({ r with backlog } : Replica σ).handleAll ds = { r with backlog := backlog' } := by
  induction ds generalizing told backlog with
  | nil => exact ⟨backlog, hk, hc, rfl⟩
  | cons d ds ih =>
    rw [List.length_cons] at hroom
    obtain ⟨hvote, hother⟩ := hds d List.mem_cons_self
    obtain ⟨backlog', hk', hc', he⟩ := ih (fun d hd => hds d (List.mem_cons_of_mem _ hd)) (hk.push d)
      hc (by rw [List.length_cons]; omega)
    refine ⟨backlog', by simpa using hk', hc', ?_⟩
    rw [handleAll, List.foldl_cons, hv.keep hready hk hc (by omega) hvote hother]
    exact he

theorem Tallies.handle_all [LawfulLedger σ] (hr : Able r view b next) {ds : List Delivery}
    (hds : ∀ d ∈ ds, d.message.VotesFor r.committee ⟨view, b.hash⟩) {heard : List Message}
    (hs : Tallies r view b next heard s) :
    Tallies r view b next ((ds.map (·.message)).reverse ++ heard) (s.handleAll ds) := by
  induction ds generalizing s heard with
  | nil => exact hs
  | cons d ds ih =>
    have hs := hs.handle hr (hds d List.mem_cons_self)
    simpa [handleAll] using ih (fun d hd => hds d (List.mem_cons_of_mem _ hd)) hs

theorem handleAll_idle (hr : r.Idle) (ds : List Delivery) : (r.handleAll ds).Idle := by
  induction ds generalizing r with
  | nil => exact hr
  | cons d ds ih => exact ih (handle_idle hr _)

/-- Other members, with the replica a quorum, vote for the block in both phases of the view. -/
structure Backers (r : Replica σ) (view : View) (b : Block) (members : List Address)
    (prepare commit : Address → Delivery) : Prop where
  distinct : members.Nodup
  others : r.signer.address ∉ members
  quorum : r.committee.quorum ≤ members.length + 1
  prepares : ∀ a ∈ members, (prepare a).message.sender = a ∧ (prepare a).message.kind = .prepare ∧
    (prepare a).message.VotesFor r.committee ⟨view, b.hash⟩
  commits : ∀ a ∈ members, (commit a).message.sender = a ∧ (commit a).message.kind = .commit ∧
    (commit a).message.VotesFor r.committee ⟨view, b.hash⟩

omit [Ledger σ] in
theorem Backers.vote {members : List Address} {prepare commit : Address → Delivery}
    (hb : Backers r view b members prepare commit)
    (hd : d ∈ members.map prepare ++ members.map commit) :
    d.message.VotesFor r.committee ⟨view, b.hash⟩ ∧ d.message.sender ≠ r.signer.address := by
  rcases List.mem_append.mp hd with hd | hd
  · obtain ⟨a, ha, rfl⟩ := List.mem_map.mp hd
    obtain ⟨hs, -, hvote⟩ := hb.prepares a ha
    exact ⟨hvote, fun he => hb.others (he ▸ hs.symm ▸ ha)⟩
  · obtain ⟨a, ha, rfl⟩ := List.mem_map.mp hd
    obtain ⟨hs, -, hvote⟩ := hb.commits a ha
    exact ⟨hvote, fun he => hb.others (he ▸ hs.symm ▸ ha)⟩

theorem Vacant.proposed [LawfulLedger σ] (hr : Able r view b next) (hv : Vacant r view)
    (hready : r.ready = [])
    (hfits : ∀ a ∈ r.attempt, r.stance.Fits (fun _ => True) a ∧ r.stance.Backs (fun _ => True) a)
    (hp : Proposes r view b p.message) {ds : List Delivery}
    (hds : ∀ d ∈ ds, d.message.VotesFor r.committee ⟨view, b.hash⟩ ∧
      d.message.sender ≠ r.signer.address)
    (hroom : ds.length ≤ r.backlog.capacity) :
    Tallies r view b next (ds.map (·.message)).reverse ((r.handleAll ds).handle (.message p)) := by
  have hempty : Keeping view [] r.backlog := hv.backlog ▸ keeping_empty view _
  obtain ⟨backlog, hk, hcap, hbefore⟩ := hv.keep_all hready hds hempty rfl
    (by rwa [List.length_nil, Nat.zero_add])
  rw [List.append_nil] at hk
  have haccept := hv.accept hr hready hfits hk hcap hp
    fun d hd => (hds d (List.mem_reverse.mp hd)).1
  rw [show r.handleAll ds = { r with backlog } from hbefore, handle, if_pos hv.started, dispatch,
    ← List.map_reverse]
  exact settle_keep (fun _ _ h ha => h.advance hr ha) _ haccept

/-- A replica that is a member, has accepted and locked nothing in its view, and has nothing to propose
later is sent the proposal and the votes of others that make a quorum with its own. In whatever order the
messages are delivered, it hands the block to its ledger once, and ends in round 0 of the next height. -/
theorem decides_in_any_order [LawfulLedger σ] {start r : Replica σ} {signer : Signer} {ledger : σ}
    {archive : Archive} {gossip : Gossip} {timer : Timer} {capacity : Nat} {es : List (Event σ)}
    {members : List Address} {prepare commit : Address → Delivery} {ds : List Delivery}
    (hc : create signer ledger archive gossip timer capacity = .ok start)
    (hes : es.foldl perform start = r) (hv : Vacant r view) (hr : Able r view b next)
    (hp : Proposes r view b p.message) (hb : Backers r view b members prepare commit)
    (hroom : 2 * members.length ≤ r.backlog.capacity)
    (hds : ds.Perm (p :: (members.map prepare ++ members.map commit))) :
    (r.handleAll ds).view? = some ⟨next, 0⟩ ∧ (r.handleAll ds).waiting = false ∧
      (r.handleAll ds).phase = .newRound ∧
      ∃ new c, (r.handleAll ds).effects = new ++ r.effects ∧ Effect.commits new = [c] ∧
        c.hash = b.hash ∧ Ledger.append r.ledger c = .ok (r.handleAll ds).ledger := by
  obtain ⟨-, -, -, -, -, hn, -⟩ := create_spec hc
  obtain ⟨⟨h, hrun, -⟩, hidle⟩ := performs_orderly (create_idle hc) es
  rw [hes] at hrun hidle
  have hfits : ∀ a ∈ r.attempt,
      r.stance.Fits (fun _ => True) a ∧ r.stance.Backs (fun _ => True) a := fun a ha =>
    ⟨(hrun.coherent hn).mono (fun _ _ => trivial) a ha,
      (hrun.seconded hn).mono (fun _ _ => trivial) a ha⟩
  -- the proposal comes somewhere among the votes
  obtain ⟨xs, ys, rfl⟩ := List.append_of_mem (hds.mem_iff.mpr List.mem_cons_self)
  have hvotes : (xs ++ ys).Perm (members.map prepare ++ members.map commit) :=
    List.Perm.cons_inv (List.perm_middle.symm.trans hds)
  have hvote : ∀ d ∈ xs ++ ys, d.message.VotesFor r.committee ⟨view, b.hash⟩ ∧
      d.message.sender ≠ r.signer.address := fun d hd => hb.vote (hvotes.subset hd)
  have hlength : xs.length + ys.length = 2 * members.length := by
    have := hvotes.length_eq
    simp only [List.length_append, List.length_map] at this
    omega
  have hopen := hv.proposed hr (hidle.ready hv.started) hfits hp
    (fun d hd => hvote d (List.mem_append_left _ hd)) (by omega)
  have hall := hopen.handle_all hr fun d hd => (hvote d (List.mem_append_right _ hd)).1
  have heq : ((r.handleAll xs).handle (.message p)).handleAll ys = r.handleAll (xs ++ p :: ys) := by
    simp only [handleAll, List.foldl_append, List.foldl_cons]
  rw [heq, ← List.reverse_append, ← List.map_append] at hall
  have htold : ∀ d ∈ members.map prepare ++ members.map commit,
      d.message ∈ ((xs ++ ys).map (·.message)).reverse := fun d hd =>
    List.mem_reverse.mpr (List.mem_map_of_mem (hvotes.mem_iff.mpr hd))
  have hclosed :=
    hall.closed hr ((handleAll_idle hidle _).ready hall.started) hb.distinct hb.others hb.quorum
    (fun a ha => ⟨(prepare a).message,
      htold _ (List.mem_append_left _ (List.mem_map_of_mem ha)), (hb.prepares a ha).2.1,
      (hb.prepares a ha).1⟩)
    (fun a ha => ⟨(commit a).message,
      htold _ (List.mem_append_right _ (List.mem_map_of_mem ha)), (hb.commits a ha).2.1,
      (hb.commits a ha).1⟩)
  exact ⟨hclosed.entered, hclosed.waiting, hclosed.phase, hclosed.shown⟩

end Replica

namespace Pair

open Replica

attribute [local instance] Scheme.plain

def delivery (m : Option Message) (h : m.isSome) : Delivery :=
  ⟨m.get h, Wire.encode (m.get h)⟩

theorem eq_some_delivery (m : Option Message) (h : m.isSome) : m = some (delivery m h).message :=
  (Option.some_get h).symm

def proposal : Delivery :=
  delivery (Message.ofPreprepare first ⟨⟨1, 0⟩, block⟩) (by decide +kernel)

def prepared : Delivery := delivery (Message.prepare first subject) (by decide +kernel)

def committed : Delivery := delivery (Message.commit first subject) (by decide +kernel)

theorem append_sealed {l : MemoryLedger} (h : l.rejecting = none)
    (hp : block.header.parentHash = l.head.hash) (hn : next? l.head.number = some block.number)
    (commits : Poll) : ∃ l', Ledger.append l (block.withSealsOf commits) = .ok l' := by
  refine ⟨l.push (block.withSealsOf commits), ?_⟩
  show l.append _ = _
  unfold MemoryLedger.append
  rw [h]
  exact if_pos ⟨hp, hn⟩

theorem exists_vacant : ∃ start, replica second = .ok start ∧ (start.perform .start).signer = second ∧
    (start.perform .start).committee.members = [1, 2] ∧ Vacant (start.perform .start) ⟨1, 0⟩ ∧
    Able (start.perform .start) ⟨1, 0⟩ block 2 ∧
    Proposes (start.perform .start) ⟨1, 0⟩ block proposal.message ∧
    2 ≤ (start.perform .start).backlog.capacity := by
  obtain ⟨start, hstart, ⟨hs, hw, hph, hv, hb, hsize⟩, hcom, ⟨hheld, hrej, hpar, hnum⟩, hprop, hval,
    hroom⟩ := exists_replica (k := second) (P := fun start =>
      ((start.perform .start).started = true ∧ (start.perform .start).waiting = false ∧
        (start.perform .start).phase = .newRound ∧
        (start.perform .start).attempt.any (fun a => a.view = ⟨1, 0⟩ ∧ a.lock = none) = true ∧
        (start.perform .start).backlog.queues = [] ∧ (start.perform .start).backlog.size = 0) ∧
      (start.perform .start).committee.members = [1, 2] ∧
      ((start.perform .start).held = [] ∧ (start.perform .start).ledger.rejecting = none ∧
        block.header.parentHash = (start.perform .start).ledger.head.hash ∧
        next? (start.perform .start).ledger.head.number = some block.number) ∧
      (start.perform .start).committee.isProposer 1 = true ∧
      ((start.perform .start).verifyProposal block).1 = .ok () ∧
      2 ≤ (start.perform .start).backlog.capacity) (by decide +kernel)
  have hk : (start.perform .start).signer = second := by
    obtain ⟨-, -, hk, -⟩ := create_spec hstart
    obtain ⟨h, hrun, -⟩ := start_run start
    exact hrun.signer.trans hk
  obtain ⟨a, ha, hv⟩ := (Option.any_eq_true _ _).mp hv
  obtain ⟨hv, hl⟩ := of_decide_eq_true hv
  refine ⟨start, hstart, hk, hcom, ?_, ?_, ?_, hroom⟩
  · exact ⟨hs, hw, hph, ⟨a, ha, hv, hl⟩, by
      generalize (start.perform .start).backlog = backlog at hb hsize
      cases backlog
      cases hb
      cases hsize
      rfl⟩
  · exact {
      honest := hk ▸ Signer.plain_honest 2
      member := by rw [hk, hcom]; decide
      prepare := by rw [hk]; exact Option.isSome_iff_exists.mp (by decide +kernel)
      commit := by rw [hk]; exact Option.isSome_iff_exists.mp (by decide +kernel)
      number := rfl
      next := by decide
      append := append_sealed hrej hpar hnum
      held := by simp [hheld] }
  · exact {
      verified := by decide +kernel
      kind := by decide +kernel
      body := by decide +kernel
      proposer := hprop
      other := by rw [hk]; decide +kernel
      valid := hval }

/-- The second validator hears the first one's Commit, then its Prepare, and its proposal last. -/
theorem decides_in_any_order_second : ∃ start, replica second = .ok start ∧
    let s := (start.perform .start).handleAll [committed, prepared, proposal]
    s.view? = some ⟨2, 0⟩ ∧ s.waiting = false ∧ s.phase = .newRound ∧
      ∃ new c, s.effects = new ++ (start.perform .start).effects ∧ Effect.commits new = [c] ∧
        c.hash = block.hash ∧ Ledger.append (start.perform .start).ledger c = .ok s.ledger := by
  obtain ⟨start, hstart, hk, hcom, hv, hr, hp, hroom⟩ := exists_vacant
  have hmember : first.address ∈ (start.perform .start).committee.members := by rw [hcom]; decide
  have hb : Backers (start.perform .start) ⟨1, 0⟩ block [first.address] (fun _ => prepared)
      (fun _ => committed) := {
    distinct := by decide
    others := by rw [hk]; decide
    quorum := by simp [Committee.quorum, Committee.faults, Committee.size, hcom]
    prepares := fun a ha => by
      obtain rfl := List.mem_singleton.mp ha
      have hsigned : Message.prepare first subject = some prepared.message := eq_some_delivery _ _
      exact ⟨(Message.signed_spec hsigned).2.2, (Message.prepare_spec hsigned).1,
        Message.votesFor_prepare (Signer.plain_honest 1) hmember hsigned⟩
    commits := fun a ha => by
      obtain rfl := List.mem_singleton.mp ha
      have hsigned : Message.commit first subject = some committed.message := eq_some_delivery _ _
      exact ⟨(Message.commit_spec hsigned).2.2, (Message.commit_spec hsigned).1,
        Message.votesFor_commit (Signer.plain_honest 1) hmember hsigned⟩ }
  have hds : [committed, prepared, proposal].Perm [proposal, prepared, committed] :=
    List.reverse_perm [proposal, prepared, committed]
  exact ⟨start, hstart, decides_in_any_order hstart
    (show [Event.start].foldl perform start = _ from rfl) hv hr hp hb hroom hds⟩

end Pair

end BlockAgreement
