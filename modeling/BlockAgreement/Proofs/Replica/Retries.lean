import BlockAgreement.Proofs.Committee.Rotation
import BlockAgreement.Proofs.Replica.Decision
import BlockAgreement.Proofs.Replica.Settling
import BlockAgreement.Proofs.Replica.Shifts

/-!
# A block that fails costs one round

A replica that is asked for a block which fails asks for the next round, and if there is a quorum for
that round already, it enters it at once. There it is another member's turn, so the block is not
proposed again and the replica comes to rest. A replica that is alone in its committee is always the
proposer and always a quorum: it proposes the block again in every round that there is.
-/

set_option autoImplicit false

namespace BlockAgreement

namespace Replica

variable {σ : Type} [Scheme] [Ledger σ] {start r s t : Replica σ} {h : List (Moment σ)}
  {heard : Option Message} {v : View}

/-- While the replica takes part in a round, the committee is that of its choice on entering the round,
after the block that was the last one then. -/
def Chosen (h : List (Moment σ)) (r : Replica σ) : Prop :=
  r.waiting = false → ∀ view ∈ r.view?, ∃ m ∈ h, ∃ committee,
    next? (Ledger.head m.after.ledger).number = some view.sequence ∧
      r.committee = Committee.choose committee (lastProposer (Ledger.head m.after.ledger)) view.round

theorem Shift.sequence_le (hs : Shift heard r s) (hv : r.view? = some v) :
    ∃ w, s.view? = some w ∧ v.sequence ≤ w.sequence := by
  have hsame {view : View} (hview : r.view? = some view) : view.sequence = v.sequence :=
    congrArg View.sequence (Option.some.inj (hview.symm.trans hv))
  have hasked {u : Replica σ} {view : View} {round : Round} {own : List Message}
      (hview : r.view? = some view) (hk : Keeps (u.catchUp ⟨view.sequence, round⟩) s own) :
      ∃ w, s.view? = some w ∧ v.sequence ≤ w.sequence :=
    ⟨_, hk.view.trans (catchUp_view u _), UInt64.le_of_eq (hsame hview).symm⟩
  cases hs with
  | stay hk => exact ⟨v, hk.view.trans hv, UInt64.le_refl _⟩
  | store _ _ hk => exact ⟨v, hk.view.trans hv, UInt64.le_refl _⟩
  | adopt hk => exact ⟨v, hk.view.trans hv, UInt64.le_refl _⟩
  | count _ _ _ hk => exact ⟨v, hk.view.trans hv, UInt64.le_refl _⟩
  | ask _ hview _ hk => exact hasked hview hk
  | join _ ha _ hk => exact hasked ha.current hk
  | follow _ _ hview _ _ hk => exact hasked hview hk
  | enter _ ha _ _ hav hk =>
    exact ⟨_, hk.view.trans (congrArg some hav), UInt64.le_of_eq (hsame ha.current).symm⟩
  | leave hl =>
    obtain ⟨w, -, hw, hlater, -⟩ := hl.view
    exact ⟨w, hw, UInt64.le_of_lt (hlater v hv)⟩

theorem Shift.chosen {m : Moment σ} (hs : Shift heard m.before m.after) (hc : Chosen h m.before) :
    Chosen (m :: h) m.after := by
  have hholds {u : Replica σ} (hu : Chosen h u) (hk : Holds u m.after) : Chosen (m :: h) m.after := by
    intro hw view hv
    obtain ⟨n, hn, committee, hnext, hcommittee⟩ := hu (hk.waiting ▸ hw) view (hk.view ▸ hv)
    exact ⟨n, List.mem_cons_of_mem _ hn, committee, hnext, hk.committee.trans hcommittee⟩
  have hasks {u : Replica σ} {view : View} {own : List Message}
      (hk : Keeps (u.catchUp view) m.after own) :
      Chosen (m :: h) m.after := by
    intro hw
    rw [hk.waiting] at hw
    cases hw
  cases hs with
  | stay hk => exact hholds hc hk.toHolds
  | store _ _ hk => exact hholds hc hk
  | @adopt ledger hk => exact hholds (u := { m.before with ledger }) hc hk.toHolds
  | @count view round c _ _ _ hk =>
    exact hholds
      (u := { m.before with roundChanges := (m.before.roundChanges.add round c).2 }) hc hk.toHolds
  | ask _ _ _ hk => exact hasks hk
  | join _ _ _ hk => exact hasks hk
  | follow _ _ _ _ _ hk => exact hasks hk
  | enter _ _ _ hn hav hk =>
    intro _ w hw
    obtain rfl := Option.some.inj ((hk.view.trans (congrArg some hav)).symm.trans hw)
    have hledger : m.after.ledger = m.before.ledger := hk.ledger
    refine ⟨m, List.mem_cons_self, m.before.committee, ?_, ?_⟩
    · rw [hledger]
      exact hn
    · rw [hledger, hk.committee, ← hav]
      rfl
  | leave hl =>
    intro _ w hw
    obtain ⟨view, committee, hview, -, hnext, hcommittee⟩ := hl.view
    obtain rfl := Option.some.inj (hview.symm.trans hw)
    exact ⟨m, List.mem_cons_self, committee, hnext, hcommittee⟩

theorem Run.chosen (hn : start.view? = none) (hr : Run start h r) : Chosen h r := by
  induction hr with
  | nil =>
    intro _ view hv
    rw [hn] at hv
    cases hv
  | @step h r e _ ih => exact Shift.chosen (m := ⟨r, e⟩) (react_shift r e) ih

structure Votes (r s : Replica σ) : Prop extends Holds r s where
  proposes : r.isProposer = true
  backlog : s.backlog.messages = []

structure Asks (r : Replica σ) (v : View) (next : Round) (s : Replica σ) : Prop where
  active : r.waiting = false
  proposes : r.isProposer = true
  follows : next? v.round = some next
  signer : s.signer = r.signer
  ledger : s.ledger = r.ledger
  committee : s.committee = r.committee
  view : s.view? = some ⟨v.sequence, next⟩
  waiting : s.waiting = true
  backlog : s.backlog.messages = []

inductive Handling (r : Replica σ) (v : View) (s : Replica σ) : Prop where
  | vote (h : Votes r s) (hs : Word r.signer s.agenda)
  | ask {next : Round} (h : Asks r v next s) (hl : s.agenda.length ≤ 1)
      (hs : ∀ c ∈ s.agenda, c.sender = r.signer.address ∧
        (c.kind = .roundChange → ∃ digest, c.subject = .ok ⟨⟨v.sequence, next⟩, digest⟩))
  /-- Nothing is left to do in this round or in the next one. -/
  | rest {w : View} (hv : s.view? = some w)
      (hw : w = v ∨ w.sequence = v.sequence ∧ next? v.round = some w.round) (ha : s.agenda = [])
  | later {w : View} (hv : s.view? = some w) (hw : v.sequence < w.sequence)

omit [Scheme] [Ledger σ] in
theorem agenda_singleton {d : Delivery} {ready : List Delivery} (hr : r.ready = d :: ready)
    (hl : r.agenda.length ≤ 1) : ready = [] ∧ d.message ∈ r.agenda := by
  simp only [agenda, hr, List.map_cons, List.length_cons, List.length_map] at hl ⊢
  exact ⟨List.length_eq_zero_iff.mp (by omega), List.mem_cons_self⟩

omit [Scheme] [Ledger σ] in
theorem Keeps.spoken {own : List Message} (hk : Keeps r s own) (hr : r.agenda = [])
    (hb : r.backlog.messages = []) : s.agenda.Sublist own ∧ s.backlog.messages = [] := by
  have hagenda := hk.agenda hb
  rw [hr, List.nil_append] at hagenda
  exact ⟨hagenda, List.subset_nil.mp (hb ▸ hk.backlog)⟩

omit [Scheme] [Ledger σ] in
theorem Keeps.silent (hk : Keeps r s []) (hr : r.agenda = []) (hb : r.backlog.messages = []) :
    s.agenda = [] :=
  List.sublist_nil.mp (hk.spoken hr hb).1

theorem Votes.step {m : Message} (hs : Votes r s) (hv : r.view? = some v) (ha : s.agenda = [])
    (hsender : m.sender = r.signer.address) (hkind : m.kind ≠ .roundChange)
    (h : Shift (some m) s t) : Handling r v t := by
  have hview : s.view? = some v := hs.view.trans hv
  cases h with
  | stay hk hword =>
    obtain ⟨hagenda, hbacklog⟩ := hk.spoken ha hs.backlog
    exact .vote ⟨hs.toHolds.trans hk.toHolds, hs.proposes, hbacklog⟩
      ((hs.signer ▸ hword).sublist hagenda)
  | store hm ho => exact absurd (Option.some.inj hm ▸ hsender.trans (hs.signer ▸ rfl)) ho
  | adopt hk => exact .rest (hk.view.trans hview) (.inl rfl) (hk.silent ha hs.backlog)
  | count hm hadmits => exact absurd hadmits.request.kind (Option.some.inj hm ▸ hkind)
  | @ask view next hh hcurrent hnext hk =>
    obtain rfl := Option.some.inj (hview.symm.trans hcurrent)
    obtain ⟨hagenda, hbacklog⟩ := hk.spoken ha hs.backlog
    have hasks : Asks r v next t :=
      { active := hs.waiting.symm.trans (hh.resolve_left (Option.some_ne_none m))
        proposes := hs.proposes
        follows := hnext
        signer := hk.signer.trans hs.signer
        ledger := hk.ledger.trans hs.ledger
        committee := hk.committee.trans hs.committee
        view := hk.view.trans (catchUp_view s _)
        waiting := hk.waiting
        backlog := hbacklog }
    refine .ask hasks (hagenda.length_le.trans ?_) fun c hc => ?_
    · cases Message.roundChange s.signer _ <;> simp
    · obtain ⟨-, hsubject, hsender⟩ := Message.roundChange_spec (Option.mem_toList.mp (hagenda.subset hc))
      exact ⟨hsender.trans (hs.signer ▸ rfl), fun _ => ⟨0, hsubject⟩⟩
  | join hm hadmits => exact absurd hadmits.request.kind (Option.some.inj hm ▸ hkind)
  | follow hh => cases hh
  | enter hm hadmits => exact absurd hadmits.request.kind (Option.some.inj hm ▸ hkind)
  | leave hl =>
    obtain ⟨w, -, hlater, hlt, -⟩ := hl.view
    exact .later hlater (hlt v hview)

theorem Asks.step {m : Message} {next : Round} (hs : Asks r v next s) (ha : s.agenda = [])
    (hsender : m.sender = r.signer.address)
    (hsubject : m.kind = .roundChange → ∃ digest, m.subject = .ok ⟨⟨v.sequence, next⟩, digest⟩)
    (hturn : next? (Ledger.head r.ledger).number = some v.sequence →
      (r.committee.choose (lastProposer (Ledger.head r.ledger)) next).isProposer r.signer.address = false)
    (h : Shift (some m) s t) : Handling r v t := by
  have hrest {u : Replica σ} (hk : Keeps u t []) (hu : u.view? = s.view?) (hagenda : u.agenda = [])
      (hbacklog : u.backlog.messages = []) : Handling r v t :=
    .rest (hk.view.trans (hu.trans hs.view)) (.inr ⟨rfl, hs.follows⟩) (hk.silent hagenda hbacklog)
  have hround {round : Round} (hr : m.Requests ⟨v.sequence, round⟩) : round = next := by
    obtain ⟨digest, hd⟩ := hsubject hr.kind
    obtain ⟨digest', hd'⟩ := hr.subject
    exact congrArg (fun x : Subject => x.view.round) (Except.ok.inj (hd'.symm.trans hd))
  cases h with
  | stay hk hword =>
    obtain ⟨hagenda, hbacklog⟩ := hk.spoken ha hs.backlog
    have hasks : Asks r v next t :=
      { hs with
        signer := hk.signer.trans hs.signer
        ledger := hk.ledger.trans hs.ledger
        committee := hk.committee.trans hs.committee
        view := hk.view.trans hs.view
        waiting := hk.waiting.trans hs.waiting
        backlog := hbacklog }
    refine .ask hasks (hagenda.length_le.trans hword.length_le) fun c hc => ?_
    have hc := hagenda.subset hc
    exact ⟨hs.signer ▸ hword.sender c hc, fun hkind => absurd hkind (hword.kind c hc)⟩
  | store hm ho => exact absurd (Option.some.inj hm ▸ hsender.trans (hs.signer ▸ rfl)) ho
  | adopt hk => exact hrest hk rfl ha hs.backlog
  | count _ _ _ hk => exact hrest hk rfl ha hs.backlog
  | ask hh =>
    -- Only a time-out makes a replica ask again while it waits.
    have hactive := hh.resolve_left (Option.some_ne_none m)
    rw [hs.waiting] at hactive
    cases hactive
  | join hm hadmits hj =>
    obtain rfl := Option.some.inj hm
    obtain rfl := Option.some.inj (hs.view.symm.trans hadmits.current)
    exact absurd (hround hadmits.request ▸ hj.above) (UInt64.lt_irrefl _)
  | follow hh => cases hh
  | enter hm hadmits _ hnext hav hk hproposes =>
    obtain rfl := Option.some.inj hm
    obtain rfl := Option.some.inj (hs.view.symm.trans hadmits.current)
    obtain rfl := hround hadmits.request
    -- The replica would have to be the proposer to say anything in the round that it enters.
    rw [hs.ledger] at hnext
    have hidle : t.isProposer = false := by
      rw [isProposer, hk.committee, hk.signer]
      simp only [Replica.entering, hav, hs.ledger, hs.committee, hs.signer]
      exact hturn hnext
    obtain rfl := hproposes.resolve_right (Bool.eq_false_iff.mp hidle)
    exact hrest hk ((congrArg some hav).trans hs.view.symm) ha hs.backlog
  | leave hl =>
    obtain ⟨w, -, hlater, hlt, -⟩ := hl.view
    exact .later hlater (hlt ⟨v.sequence, next⟩ hs.view)

/-- If the replica is the proposer of its round, it is not the proposer of the next one, unless it is
alone or the last block has been replaced in the meantime. -/
theorem Chosen.isProposer_next {next : Round} (hc : Chosen h r) (hv : r.view? = some v)
    (hlone : r.committee.members ≠ [r.signer.address])
    (hlinear : ∀ m ∈ h, (Ledger.head m.after.ledger).number = (Ledger.head r.ledger).number →
      lastProposer (Ledger.head m.after.ledger) = lastProposer (Ledger.head r.ledger))
    (hw : r.waiting = false) (hp : r.isProposer = true) (hn : next? v.round = some next)
    (hnext : next? (Ledger.head r.ledger).number = some v.sequence) :
    (r.committee.choose (lastProposer (Ledger.head r.ledger)) next).isProposer r.signer.address =
      false := by
  obtain ⟨m, hm, committee, hseq, hcommittee⟩ := hc hw v hv
  have hlast : lastProposer (Ledger.head m.after.ledger) = lastProposer (Ledger.head r.ledger) :=
    hlinear m hm (Option.some.inj ((previous?_of_next? hseq).symm.trans (previous?_of_next? hnext)))
  have hmembers : r.committee.members = committee.members := by rw [hcommittee]; rfl
  have hpolicy : r.committee.policy = committee.policy := by rw [hcommittee]; rfl
  rw [isProposer, hcommittee, hlast] at hp
  rw [hmembers] at hlone
  have hnot := Committee.isProposer_next hp hlone hn
  rw [Committee.isProposer] at hnot ⊢
  rwa [Committee.choose_congr hmembers hpolicy]

theorem Handling.step (hv : r.view? = some v)
    (hturn : ∀ next, next? v.round = some next → r.waiting = false → r.isProposer = true →
      next? (Ledger.head r.ledger).number = some v.sequence →
      (r.committee.choose (lastProposer (Ledger.head r.ledger)) next).isProposer r.signer.address = false)
    (hs : Handling r v s) (ht : s.advance = some t) : Handling r v t := by
  obtain ⟨d, ready, -, hready, rfl⟩ := advance_eq_some ht
  have hshift := receive_shift { s with ready } d
  cases hs with
  | vote hvotes hword =>
    obtain ⟨rfl, hd⟩ := agenda_singleton hready hword.length_le
    have hvotes : Votes r { s with ready := [] } :=
      ⟨hvotes.toHolds.trans ⟨rfl, rfl, rfl, rfl, rfl, rfl⟩, hvotes.proposes, hvotes.backlog⟩
    exact hvotes.step hv rfl (hword.sender _ hd) (hword.kind _ hd) hshift
  | @ask next hasks hlength hown =>
    obtain ⟨rfl, hd⟩ := agenda_singleton hready hlength
    have hasks' : Asks r v next { s with ready := [] } := { hasks with }
    obtain ⟨hsender, hsubject⟩ := hown _ hd
    exact hasks'.step rfl hsender hsubject (hturn next hasks.follows hasks.active hasks.proposes) hshift
  | rest _ _ ha => simp [agenda, hready] at ha
  | later hview hw =>
    obtain ⟨w, hlater, hle⟩ := hshift.sequence_le (r := { s with ready }) hview
    exact .later hlater (UInt64.lt_of_lt_of_le hw hle)

omit [Scheme] [Ledger σ] in
theorem Handling.view (hs : Handling r v s) (hv : r.view? = some v) : ∃ w, s.view? = some w ∧
    (w = v ∨ (w.sequence = v.sequence ∧ next? v.round = some w.round) ∨ v.sequence < w.sequence) := by
  cases hs with
  | vote hvotes => exact ⟨v, hvotes.view.trans hv, .inl rfl⟩
  | ask hasks => exact ⟨_, hasks.view, .inr (.inl ⟨rfl, hasks.follows⟩)⟩
  | rest hview hw => exact ⟨_, hview, hw.imp_right .inl⟩
  | later hview hw => exact ⟨_, hview, .inr (.inr hw)⟩

/-- Handling a request costs a replica one round at most: it stays in its view, or it has gone on to the
next round or to a later height. Nothing must be in its backlog. The replica must not be alone in its
committee, and the last block of the ledger must not have come in the place of another proposer's. -/
theorem request_costs_one_round {signer : Signer} {ledger : σ} {archive : Archive} {gossip : Gossip}
    {timer : Timer} {capacity : Nat}
    (hc : create signer ledger archive gossip timer capacity = .ok start) (hr : Run start h r)
    (hready : r.ready = []) (hbacklog : r.backlog.toList = []) (hv : r.view? = some v)
    (hlone : r.committee.members ≠ [r.signer.address])
    (hlinear : ∀ m ∈ h, (Ledger.head m.after.ledger).number = (Ledger.head r.ledger).number →
      lastProposer (Ledger.head m.after.ledger) = lastProposer (Ledger.head r.ledger)) (b : Block) :
    ∃ w, (r.handle (.request b)).view? = some w ∧
      (w = v ∨ (w.sequence = v.sequence ∧ next? v.round = some w.round) ∨ v.sequence < w.sequence) := by
  obtain ⟨-, -, -, -, -, hattempt, -⟩ := create_spec hc
  have hchosen : Chosen h r := hr.chosen (by simp [view?, hattempt])
  have hempty : r.backlog.messages = [] := by rw [← Backlog.messages_toList, hbacklog]; rfl
  have hagenda : r.agenda = [] := by simp [agenda, hready]
  cases hs : r.started with
  | false => exact ⟨v, by simpa [handle, hs] using hv, .inl rfl⟩
  | true =>
    obtain ⟨own, ho, hword, hp⟩ := handleRequest_remains r b
    obtain ⟨hspoken, hstored⟩ := ho.keeps.spoken hagenda hempty
    have hbegin : Handling r v (r.handleRequest b) := by
      rcases hp with rfl | hp
      · exact .rest (ho.view.trans hv) (.inl rfl) (List.sublist_nil.mp hspoken)
      · exact .vote ⟨ho.keeps.toHolds, hp, hstored⟩ (hword.sublist hspoken)
    have hend : Handling r v (r.handleRequest b).settled :=
      settle_keep (fun _ _ => Handling.step hv fun next hn hw hp hnext =>
        hchosen.isProposer_next hv hlone hlinear hw hp hn hnext) _ hbegin
    have hhandle : r.handle (.request b) = (r.handleRequest b).settled := by
      simp only [handle, hs, if_true, dispatch]
    rw [hhandle]
    exact hend.view hv

end Replica

namespace Pair

open Replica

attribute [local instance] Scheme.plain

/-- The first validator is asked for a block that is not valid, and it goes on to the next round. -/
theorem request_costs_one_round_unsealed : ∃ start, replica first = .ok start ∧
    ∃ h r, Run start h r ∧ r.view? = some ⟨1, 0⟩ ∧
      ∃ w, (r.handle (.request unsealed)).view? = some w ∧ w ≠ ⟨1, 0⟩ ∧
        (w = ⟨1, 0⟩ ∨ (w.sequence = 1 ∧ next? 0 = some w.round) ∨ 1 < w.sequence) := by
  obtain ⟨start, hstart, hready, hbacklog, hv, hlone, hmoved⟩ := exists_replica (k := first)
    (P := fun start => (start.react .start).ready = [] ∧ (start.react .start).backlog.toList = [] ∧
      (start.react .start).view? = some ⟨1, 0⟩ ∧
      (start.react .start).committee.members ≠ [(start.react .start).signer.address] ∧
      ((start.react .start).handle (.request unsealed)).view? ≠ some ⟨1, 0⟩) (by decide +kernel)
  have hr : Run start [⟨start, .start⟩] (start.react .start) := .step .start .nil
  have hlinear : ∀ m ∈ [(⟨start, .start⟩ : Moment MemoryLedger)],
      (Ledger.head m.after.ledger).number = (Ledger.head (start.react .start).ledger).number →
      lastProposer (Ledger.head m.after.ledger) =
        lastProposer (Ledger.head (start.react .start).ledger) := by
    intro m hm _
    rw [List.mem_singleton.mp hm]
    rfl
  obtain ⟨w, hw, hone⟩ :=
    request_costs_one_round hstart hr hready hbacklog hv hlone hlinear unsealed
  refine ⟨start, hstart, _, _, hr, hv, w, hw, ?_, hone⟩
  rintro rfl
  exact hmoved hw

end Pair

/-! A validator that is alone in its committee. -/

namespace Lone

open Replica

attribute [local instance] Scheme.plain

def genesis : Header := .genesis [1] 0

def replica : Except HeaderFault (Replica MemoryLedger) :=
  Replica.create Pair.first (.ofHeaders [genesis]) (.empty 100 .roundRobin 8) (.empty 8 8) (.idle 10 20) 8

def late : Round := 18446744073709551612

def lateEvents : List (Event MemoryLedger) :=
  [.start] ++ Pair.hear (Message.roundChange Pair.first ⟨1, late⟩)

/-- With one request for a block that is not valid, the validator goes through all the rounds that are
left. -/
theorem request_costs_every_round : ∃ start, replica = .ok start ∧
    ∃ r, Run start (start.moments lateEvents) r ∧ r.ready = [] ∧ r.backlog.toList = [] ∧ r.held = [] ∧
      r.view? = some ⟨1, late⟩ ∧
      (r.handle (.request Pair.unsealed)).view? = some ⟨1, late + 3⟩ := by
  have h : replica.toOption.any (fun start =>
      (lateEvents.foldl react start).ready = [] ∧ (lateEvents.foldl react start).backlog.toList = [] ∧
      (lateEvents.foldl react start).held = [] ∧
      (lateEvents.foldl react start).view? = some ⟨1, late⟩ ∧
      ((lateEvents.foldl react start).handle (.request Pair.unsealed)).view? = some ⟨1, late + 3⟩) =
        true := by decide +kernel
  cases hc : replica with
  | error e =>
    rw [hc] at h
    cases h
  | ok start =>
    rw [hc] at h
    exact ⟨start, rfl, _, moments_run start lateEvents, of_decide_eq_true h⟩

end Lone

end BlockAgreement
