import BlockAgreement.Proofs.Replica.Rounds
import BlockAgreement.Proofs.Replica.Shifts

/-!
# Certificates for a round

More requests for a round than members may be faulty come from an honest member too: they are a
certificate for the round. A replica skips a round only for one that has a certificate. At a time-out it
joins the highest such round, unless it has been waiting since before the certificate: it looks at the
certificates when it begins to wait, and while it waits it follows those that become complete.
-/

set_option autoImplicit false

namespace BlockAgreement

instance : IsStrictTotalOrder Round (· < ·) where
  irrefl _ := UInt64.lt_irrefl _
  trans _ _ _ := UInt64.lt_trans
  trichotomous _ _ h h' := UInt64.le_antisymm (UInt64.not_lt.mp h') (UInt64.not_lt.mp h)

namespace SortedMap

variable {κ α : Type} [LT κ] [IsStrictTotalOrder κ (· < ·)]

theorem Ascending.find?_eq_some [DecidableEq κ] {m : SortedMap κ α} (hm : m.Ascending) {k : κ} {a : α} :
    m.find? k = some a ↔ (k, a) ∈ m := by
  induction m with
  | nil => simp
  | cons e m ih =>
    obtain ⟨j, b⟩ := e
    obtain ⟨hj, htail⟩ := List.pairwise_cons.mp hm
    rw [find?_cons, List.mem_cons, Prod.mk.injEq]
    split
    · rename_i hjk
      subst hjk
      have hnot : (j, a) ∉ m := fun h => irrefl_of (· < ·) j (hj _ h)
      simp [hnot, eq_comm]
    · rename_i hjk
      rw [ih htail]
      simp [Ne.symm hjk]

theorem Ascending.find?_reverse {m : SortedMap κ α} (hm : m.Ascending) {p : κ × α → Bool} {e : κ × α}
    (he : m.reverse.find? p = some e) : e ∈ m ∧ p e = true ∧ ∀ d ∈ m, p d = true → ¬ e.1 < d.1 := by
  obtain ⟨hp, front, back, hsplit, hfront⟩ := List.find?_eq_some_iff_append.mp he
  have hdescending : m.reverse.Pairwise fun d e => e.1 < d.1 := List.pairwise_reverse.mpr hm
  rw [hsplit, List.pairwise_append, List.pairwise_cons] at hdescending
  have hmem (d : κ × α) : d ∈ m ↔ d ∈ front ++ e :: back := by rw [← hsplit, List.mem_reverse]
  refine ⟨(hmem e).mpr (by simp), hp, fun d hd hpd hlt => ?_⟩
  rcases List.mem_append.mp ((hmem d).mp hd) with hd | hd
  · have hnot := hfront d hd
    rw [hpd] at hnot
    cases hnot
  · rcases List.mem_cons.mp hd with rfl | hd
    · exact irrefl_of (· < ·) _ hlt
    · exact asymm_of (· < ·) hlt (hdescending.2.1.1 d hd)

end SortedMap

namespace RoundChanges

variable {rc : RoundChanges} {round other : Round} {m : Message} {n : Nat}

def Ordered (rc : RoundChanges) : Prop := SortedMap.Ascending rc.polls

theorem empty_ordered (sequence : Height) (committee : Committee) :
    (empty sequence committee).Ordered := List.Pairwise.nil

theorem Ordered.add (h : rc.Ordered) (round : Round) (m : Message) : (rc.add round m).2.Ordered := by
  unfold RoundChanges.add
  split <;> exact SortedMap.Ascending.insert h _ _

theorem Ordered.clear (h : rc.Ordered) (round : Round) : (rc.clear round).Ordered :=
  SortedMap.Ascending.of_keys h (List.filter_sublist.map _)

theorem Ordered.le_count (h : rc.Ordered) (hn : 0 < n) :
    n ≤ rc.count round ↔ ∃ poll, (round, poll) ∈ rc.polls ∧ n ≤ poll.size := by
  unfold count poll
  constructor
  · intro hle
    cases hf : rc.polls.find? round with
    | none =>
      rw [hf] at hle
      exact absurd hle (Nat.not_le.mpr hn)
    | some poll =>
      rw [hf] at hle
      exact ⟨poll, (SortedMap.Ascending.find?_eq_some h).mp hf, hle⟩
  · rintro ⟨poll, hp, hle⟩
    rw [(SortedMap.Ascending.find?_eq_some h).mpr hp]
    exact hle

theorem Ordered.le_count_clear (h : rc.Ordered) (hn : 0 < n) (hr : round ≤ other) :
    n ≤ (rc.clear round).count other ↔ n ≤ rc.count other := by
  rw [(h.clear round).le_count hn, h.le_count hn]
  refine exists_congr fun poll => and_congr_left fun hle => ?_
  have hne : poll.isEmpty = false := by
    cases hm : poll.messages with
    | nil => simp [Poll.size, hm] at hle; omega
    | cons c cs => simp [Poll.isEmpty, hm]
  simp [RoundChanges.clear, hr, hne]

theorem Ordered.maxRound?_eq_some (h : rc.Ordered) (hn : 0 < n) (hm : rc.maxRound? n = some round) :
    n ≤ rc.count round ∧ ∀ other, n ≤ rc.count other → other ≤ round := by
  obtain ⟨e, he, rfl⟩ := Option.map_eq_some_iff.mp hm
  obtain ⟨hmem, hsize, hlast⟩ := SortedMap.Ascending.find?_reverse h he
  refine ⟨(h.le_count hn).mpr ⟨e.2, hmem, of_decide_eq_true hsize⟩, fun other hother => ?_⟩
  obtain ⟨poll, hp, hle⟩ := (h.le_count hn).mp hother
  exact UInt64.not_lt.mp (hlast _ hp (decide_eq_true hle))

theorem Ordered.maxRound?_eq_none (h : rc.Ordered) (hn : 0 < n) (hm : rc.maxRound? n = none)
    (round : Round) : rc.count round < n := by
  refine Nat.lt_of_not_le fun hle => ?_
  obtain ⟨poll, hp, hle⟩ := (h.le_count hn).mp hle
  have hnone := List.find?_eq_none.mp (Option.map_eq_none_iff.mp hm) _ (List.mem_reverse.mpr hp)
  exact hnone (decide_eq_true hle)

theorem count_add_of_ne (hne : round ≠ other) : (rc.add round m).2.count other = rc.count other := by
  rw [count, poll_add, if_neg hne, count]

theorem count_add_self (h : (rc.add round m).1 = .ok n) :
    (rc.add round m).2.count round = n ∧ n ≤ rc.count round + 1 := by
  obtain ⟨poll, hp, rfl⟩ := add_ok.mp h
  refine ⟨?_, (Poll.size_add hp).2⟩
  rw [count, poll_add, if_pos rfl, hp]
  rfl

end RoundChanges

namespace Position

variable [Scheme] {origin p q : Position} {heard : Option Message} {head : Height} {vs : List View}

theorem Step.ordered (h : Step origin heard head p vs q)
    (hp : ∀ view ∈ p.view, p.roundChanges.Ordered) : ∀ view ∈ q.view, q.roundChanges.Ordered := by
  cases h with
  | rise => exact hp
  | append => exact hp
  | ask hv => exact fun _ _ => (hp _ hv).clear _
  | enterSequence => exact fun _ _ => RoundChanges.empty_ordered _ _
  | enterRound => exact fun _ _ => RoundChanges.empty_ordered _ _
  | count hm ha => exact fun _ _ => (hp _ ha.current).add _ _
  | miss hm ha => exact fun _ _ => (hp _ ha.current).add _ _

theorem Steps.ordered (h : Steps origin heard head p vs q)
    (hp : ∀ view ∈ p.view, p.roundChanges.Ordered) : ∀ view ∈ q.view, q.roundChanges.Ordered := by
  induction h with
  | refl => exact hp
  | step _ hs ih => exact hs.ordered ih

end Position

theorem Committee.faults_lt_quorum (c : Committee) : c.faults < c.quorum := by
  unfold quorum faults
  omega

namespace Replica

open Position

variable {σ : Type}

/-- More members ask for the round than may be faulty. -/
def Certified (r : Replica σ) (round : Round) : Prop :=
  r.committee.faults + 1 ≤ r.roundChanges.count round

instance (r : Replica σ) (round : Round) : Decidable (r.Certified round) :=
  inferInstanceAs (Decidable (_ ≤ _))

/-- The round that a time-out of the view should lead to: the highest one above with a certificate, or
else the next one. -/
def Wants (r : Replica σ) (view : View) (round : Round) : Prop :=
  (view.round < round ∧ r.Certified round ∧ ∀ other, r.Certified other → other ≤ round) ∨
    next? view.round = some round ∧ ∀ other, view.round < other → ¬ r.Certified other

/-- The round had a certificate before, in this sequence, at a time when the replica did not wait. -/
def Foreseen (h : List (Moment σ)) (sequence : Height) (round : Round) : Prop :=
  ∃ m ∈ h, m.before.waiting = false ∧ (∃ view ∈ m.before.view?, view.sequence = sequence) ∧
    m.before.Certified round

theorem Foreseen.mono {h k : List (Moment σ)} (hk : h ⊆ k) {sequence : Height} {round : Round}
    (hf : Foreseen h sequence round) : Foreseen k sequence round := by
  obtain ⟨m, hm, hf⟩ := hf
  exact ⟨m, hk hm, hf⟩

/-- While the replica waits, a certificate for a higher round is older than the wait, or it is a quorum
that the ledger did not let it use. -/
def Anticipated (h : List (Moment σ)) (r : Replica σ) : Prop :=
  r.waiting = true → ∀ view ∈ r.view?, ∀ round, view.round < round → r.Certified round →
    Foreseen h view.sequence round ∨ r.committee.quorum ≤ r.roundChanges.count round

variable [Scheme] [Ledger σ] {start r s : Replica σ} {h : List (Moment σ)} {heard : Option Message}
  {view : View} {round : Round} {m : Message}

omit [Scheme] [Ledger σ] in
theorem Anticipated.holds (ha : Anticipated h r) (hs : Holds r s) : Anticipated h s := by
  unfold Anticipated Certified
  rw [hs.waiting, hs.view, hs.committee, hs.roundChanges]
  exact ha

omit [Scheme] [Ledger σ] in
theorem Anticipated.count (ha : Anticipated h r) (hv : r.view? = some view)
    (hj : r.Joins view round m → (r.roundChanges.add round m).1 = .ok r.committee.quorum) :
    Anticipated h { r with roundChanges := (r.roundChanges.add round m).2 } := by
  intro hw current hcurrent higher hlt hcert
  obtain rfl := Option.some.inj (hv.symm.trans hcurrent)
  have hcert : r.committee.faults + 1 ≤ (r.roundChanges.add round m).2.count higher := hcert
  show _ ∨ r.committee.quorum ≤ (r.roundChanges.add round m).2.count higher
  by_cases hne : round = higher
  · subst hne
    cases hadd : (r.roundChanges.add round m).1 with
    | error e =>
      rw [RoundChanges.count_add hadd] at hcert ⊢
      exact ha hw view hv round hlt hcert
    | ok n =>
      obtain ⟨hcount, hle⟩ := RoundChanges.count_add_self hadd
      rw [hcount] at hcert ⊢
      by_cases hn : n = r.committee.faults + 1
      · have hquorum := hj ⟨hw, hlt, hadd.trans (congrArg _ hn)⟩
        exact .inr (Except.ok.inj (hquorum.symm.trans hadd)).le
      · have hbefore : r.Certified round := by
          unfold Certified
          omega
        obtain ⟨poll, hp, rfl⟩ := RoundChanges.add_ok.mp hadd
        exact (ha hw view hv round hlt hbefore).imp_right fun hq => hq.trans (Poll.size_add hp).1
  · rw [RoundChanges.count_add_of_ne hne] at hcert ⊢
    exact ha hw view hv higher hlt hcert

omit [Scheme] [Ledger σ] in
theorem Anticipated.catchUp (ho : r.roundChanges.Ordered)
    (hall : ∀ higher, round < higher → r.Certified higher →
      Foreseen h view.sequence higher ∨ r.committee.quorum ≤ r.roundChanges.count higher) :
    Anticipated h (r.catchUp ⟨view.sequence, round⟩) := by
  intro _ current hcurrent higher hlt hcert
  obtain rfl := Option.some.inj ((catchUp_view r ⟨view.sequence, round⟩).symm.trans hcurrent)
  have hle : round ≤ higher := UInt64.le_of_lt hlt
  refine (hall higher hlt ((ho.le_count_clear (Nat.succ_pos _) hle).mp hcert)).imp_right fun hq => ?_
  exact (ho.le_count_clear (Committee.quorum_pos _) hle).mpr hq

omit [Scheme] [Ledger σ] in
theorem Anticipated.ask (ha : Anticipated h r) (e : Event σ) (ho : r.roundChanges.Ordered)
    (hv : r.view? = some view) (hr : view.round < round) :
    Anticipated (⟨r, e⟩ :: h) (r.catchUp ⟨view.sequence, round⟩) := by
  refine .catchUp ho fun higher hlt hcert => ?_
  cases hw : r.waiting with
  | false => exact .inl ⟨⟨r, e⟩, List.mem_cons_self, hw, ⟨view, hv, rfl⟩, hcert⟩
  | true =>
    exact (ha hw view hv higher (UInt64.lt_trans hr hlt) hcert).imp_left
      (.mono (List.subset_cons_self _ _))

theorem Shift.anticipated (hs : Shift heard r s) (ha : Anticipated h r) (e : Event σ)
    (ho : ∀ view ∈ r.view?, r.roundChanges.Ordered) : Anticipated (⟨r, e⟩ :: h) s := by
  have hmono {t : Replica σ} (ht : Anticipated h t) : Anticipated (⟨r, e⟩ :: h) t :=
    fun hw view hv round hlt hc => (ht hw view hv round hlt hc).imp_left
      (.mono (List.subset_cons_self _ _))
  cases hs with
  | stay hk => exact hmono (ha.holds hk.toHolds)
  | store _ _ hk => exact hmono (ha.holds hk)
  | @adopt ledger hk =>
    have hledger : Anticipated h { r with ledger } := ha
    exact hmono (hledger.holds hk.toHolds)
  | count _ hadmits hj hk => exact hmono ((ha.count hadmits.current hj).holds hk.toHolds)
  | ask _ hv hr hk => exact (ha.ask e (ho _ hv) hv (lt_of_next? hr)).holds hk.toHolds
  | follow _ _ hv hr _ hk => exact (ha.ask e (ho _ hv) hv hr).holds hk.toHolds
  | @join view round m _ hadmits hj hk =>
    have hv : r.view? = some view := hadmits.current
    refine Anticipated.holds ?_ hk.toHolds
    refine .catchUp ((ho _ hv).add round m) fun higher hlt hcert => ?_
    have hsame : (r.roundChanges.add round m).2.count higher = r.roundChanges.count higher :=
      RoundChanges.count_add_of_ne (UInt64.ne_of_lt hlt)
    have hcert : r.Certified higher := by
      rw [Certified, ← hsame]
      exact hcert
    show _ ∨ r.committee.quorum ≤ (r.roundChanges.add round m).2.count higher
    rw [hsame]
    exact (ha hj.waits view hv higher (UInt64.lt_trans hj.above hlt) hcert).imp_left
      (.mono (List.subset_cons_self _ _))
  | enter _ _ _ _ _ hk =>
    intro hw
    rw [hk.waiting] at hw
    cases hw
  | leave hl =>
    intro hw
    rw [hl.active] at hw
    cases hw

theorem Run.ordered (hn : start.view? = none) (hr : Run start h r) :
    ∀ view ∈ r.view?, r.roundChanges.Ordered := by
  induction hr with
  | nil => simp [hn]
  | @step h r e _ ih => exact (Moment.steps ⟨r, e⟩).ordered ih

theorem Run.anticipated (hn : start.view? = none) (hr : Run start h r) : Anticipated h r := by
  induction hr with
  | nil =>
    intro _ view hv
    rw [hn] at hv
    cases hv
  | @step h r e hr ih => exact (react_shift r e).anticipated ih e (hr.ordered hn)

/-- At the end of its time in a view the replica asks for one round. It has looked for a certificate if it
was not waiting. -/
theorem handleTimeout_eq (hv : r.view? = some view)
    (hbelow : (Ledger.head r.ledger).number < view.sequence) (hn : next? view.round ≠ none) :
    ∃ round, view.round < round ∧
      r.handleTimeout view = (r.notify (.viewTimeout view)).sendRoundChange round ∧
      (r.waiting = false ∧ r.roundChanges.maxRound? (r.committee.faults + 1) = some round ∨
        next? view.round = some round ∧ (r.waiting = false →
          ∀ highest, r.roundChanges.maxRound? (r.committee.faults + 1) = some highest →
            ¬ view.round < highest)) := by
  obtain ⟨next, hnext⟩ := Option.ne_none_iff_exists'.mp hn
  refine handleTimeout_induction (P := fun s => ∃ round, view.round < round ∧
    s = (r.notify (.viewTimeout view)).sendRoundChange round ∧
    (r.waiting = false ∧ r.roundChanges.maxRound? (r.committee.faults + 1) = some round ∨
      next? view.round = some round ∧ (r.waiting = false →
        ∀ highest, r.roundChanges.maxRound? (r.committee.faults + 1) = some highest →
          ¬ view.round < highest))) r view (fun hother => absurd hv hother) ?joined ?moved ?asked
  case joined => exact fun round _ hw hlt hm => ⟨round, hlt, rfl, .inl ⟨hw, hm⟩⟩
  case moved => exact fun _ hle => absurd hle (UInt64.not_le.mpr hbelow)
  case asked =>
    intro _ _ hnone
    have hview : (r.notify (.viewTimeout view)).view? = some view := hv
    have hasks : (r.notify (.viewTimeout view)).sendNextRoundChange =
        (r.notify (.viewTimeout view)).sendRoundChange next := by
      simp only [sendNextRoundChange, hview, Option.bind_some, hnext]
    exact ⟨next, lt_of_next? hnext, hasks, .inr ⟨hnext, hnone⟩⟩

omit [Ledger σ] in
theorem sendRoundChange_says (hv : r.view? = some view) (hr : view.round < round) :
    ∃ n, Says r (r.sendRoundChange round)
      (Message.roundChange r.signer ⟨view.sequence, round⟩).toList n := by
  have hcatch : Says r (r.catchUp ⟨view.sequence, round⟩) [] 0 := says_of_eq rfl rfl rfl rfl
  rw [sendRoundChange_eq hv hr]
  exact ⟨_, by simpa using hcatch.trans (broadcast_speaks _ _ _).toSays⟩

/-- A time-out in a view makes the replica ask for exactly one higher round, and wait for it. That is the
highest round for which more members have asked than may be faulty, or the next one if there is none,
unless the replica was waiting and there is such a certificate from before it began to wait (or from a
quorum that could not enter the round because the ledger had fallen back). Then it may be the next round
all the same. -/
theorem timeout_follows_certificate {signer : Signer} {ledger : σ} {archive : Archive} {gossip : Gossip}
    {timer : Timer} {capacity : Nat}
    (hc : create signer ledger archive gossip timer capacity = .ok start) (hr : Run start h r)
    (hs : r.started = true) (hv : r.view? = some view)
    (hbelow : (Ledger.head r.ledger).number < view.sequence) (hn : next? view.round ≠ none) :
    ∃ round, Moment.signed ⟨r, .input (.timeout view)⟩ =
        (Message.roundChange r.signer ⟨view.sequence, round⟩).toList ∧
      (r.react (.input (.timeout view))).view? = some ⟨view.sequence, round⟩ ∧
      (r.react (.input (.timeout view))).waiting = true ∧
      (r.Wants view round ∨ r.waiting = true ∧ next? view.round = some round ∧
        ∃ missed, view.round < missed ∧ r.Certified missed ∧
          (Foreseen h view.sequence missed ∨ r.committee.quorum ≤ r.roundChanges.count missed)) := by
  obtain ⟨-, -, -, -, -, hattempt, -⟩ := create_spec hc
  have hnone : start.view? = none := by simp [view?, hattempt]
  have hordered := hr.ordered hnone view hv
  have hpos : 0 < r.committee.faults + 1 := Nat.succ_pos _
  obtain ⟨round, hlt, he, hround⟩ := handleTimeout_eq hv hbelow hn
  have hreact : r.react (.input (.timeout view)) =
      (r.notify (.viewTimeout view)).sendRoundChange round := by
    simp only [react, hs, if_true, dispatch, he]
  have hview : (r.notify (.viewTimeout view)).view? = some view := hv
  have hkeeps := sendRoundChange_keeps hview hlt
  refine ⟨round, ?_, ?_, ?_, ?_⟩
  · obtain ⟨n, hsays⟩ := sendRoundChange_says hview hlt
    obtain ⟨new, hshown, hown⟩ := ((notify_silent r (.viewTimeout view)).toSays.trans hsays).shown
    have hafter : (⟨r, .input (.timeout view)⟩ : Moment σ).shown = new := by
      refine Moment.shown_of_leads ?_
      show (r.react (.input (.timeout view))).effects = _
      rw [hreact]
      exact hshown
    rw [List.append_nil] at hown
    rw [Moment.signed, hafter]
    exact hown
  · rw [hreact, hkeeps.view]
    exact catchUp_view _ _
  · rw [hreact, hkeeps.waiting]
    rfl
  · rcases hround with ⟨hw, hmax⟩ | ⟨hnext, hfree⟩
    · obtain ⟨hcert, hhighest⟩ := hordered.maxRound?_eq_some hpos hmax
      exact .inl (.inl ⟨hlt, hcert, hhighest⟩)
    · by_cases hmissed : ∃ missed, view.round < missed ∧ r.Certified missed
      · obtain ⟨missed, habove, hcert⟩ := hmissed
        cases hw : r.waiting with
        | true =>
          exact .inr ⟨rfl, hnext, missed, habove, hcert,
            hr.anticipated hnone hw view hv missed habove hcert⟩
        | false =>
          -- The highest certificate is not above the view, so this one is not either.
          cases hmax : r.roundChanges.maxRound? (r.committee.faults + 1) with
          | none => exact absurd (hordered.maxRound?_eq_none hpos hmax missed) (Nat.not_lt.mpr hcert)
          | some highest =>
            have hle := (hordered.maxRound?_eq_some hpos hmax).2 missed hcert
            exact absurd (UInt64.lt_of_lt_of_le habove hle) (hfree hw highest hmax)
      · exact .inl (.inr ⟨hnext, fun other habove hcert => hmissed ⟨other, habove, hcert⟩⟩)

/-- A round is skipped only for one that more members ask for than may be faulty: their valid requests for
exactly that round have been heard in the sequence and counted. -/
theorem skips_need_certificate {signer : Signer} {ledger : σ} {archive : Archive} {gossip : Gossip}
    {timer : Timer} {capacity : Nat}
    (hc : create signer ledger archive gossip timer capacity = .ok start) (hr : Run start h r)
    (e : Event σ) (hv : r.view? = some view) (hs : (r.react e).view? = some ⟨view.sequence, round⟩)
    (hskip : view.round.toNat + 1 < round.toNat) :
    ∃ poll, (poll = r.roundChanges.poll round ∨ ∃ c, Moment.heard ⟨r, e⟩ = some c ∧
        (r.roundChanges.poll round).add c = .ok poll) ∧
      (r.react e).committee.faults + 1 ≤ poll.size ∧ poll.senders.Nodup ∧
      ∀ x ∈ poll.messages, x.Requests ⟨view.sequence, round⟩ ∧
        x.sender ∈ (r.react e).committee.members ∧ HeardAt (⟨r, e⟩ :: h) x view.sequence := by
  obtain ⟨-, -, -, -, -, hattempt, -⟩ := create_spec hc
  have hnone : start.view? = none := by simp [view?, hattempt]
  have hordered := hr.ordered hnone view hv
  have hcounted :=
    (hr.counted hnone view hv).mono fun _ _ => HeardAt.mono (List.subset_cons_self ⟨r, e⟩ h)
  -- a round is skipped only by a shift that changes the view, and all but one of these count a poll
  have hstays (hsame : (r.react e).view? = r.view?) : False := by
    have hround := congrArg View.round (Option.some.inj ((hsame.trans hv).symm.trans hs))
    have hround : view.round.toNat = round.toNat := congrArg UInt64.toNat hround
    omega
  have hasks {old : View} {asked : Round} (hold : r.view? = some old)
      (hasked : (r.react e).view? = some ⟨old.sequence, asked⟩) : asked = round :=
    congrArg View.round (Option.some.inj (hasked.symm.trans hs))
  have hpoll {poll : Poll} (hmembers : (r.react e).committee.members = r.committee.members)
      (hp : poll.committee.members = r.committee.members ∧ ∀ c ∈ poll.messages,
        c.Requests ⟨view.sequence, round⟩ ∧ HeardAt (⟨r, e⟩ :: h) c view.sequence) :
      ∀ x ∈ poll.messages, x.Requests ⟨view.sequence, round⟩ ∧
        x.sender ∈ (r.react e).committee.members ∧ HeardAt (⟨r, e⟩ :: h) x view.sequence :=
    fun x hx => ⟨(hp.2 x hx).1, hmembers ▸ hp.1 ▸ poll.authorized x hx, (hp.2 x hx).2⟩
  have hadded {m : Message} {poll : Poll} (hm : Moment.heard ⟨r, e⟩ = some m)
      (ha : r.position.Admits view round m) (hadd : (r.roundChanges.poll round).add m = .ok poll) :=
    hcounted.add ha ⟨⟨r, e⟩, List.mem_cons_self, hm, view, hv, rfl⟩ hadd
  cases react_shift r e with
  | stay hk => exact (hstays hk.view).elim
  | store _ _ hk => exact (hstays hk.view).elim
  | adopt hk => exact (hstays hk.view).elim
  | count _ _ _ hk => exact (hstays hk.view).elim
  | @ask old next _ hold hnext hk =>
    obtain rfl := Option.some.inj (hv.symm.trans hold)
    obtain rfl := hasks hv (hk.view.trans (catchUp_view _ _))
    -- to ask for the next round skips none
    have hround := toNat_of_next? hnext
    omega
  | @join old asked m hm ha hj hk =>
    obtain rfl := Option.some.inj (hv.symm.trans ha.current)
    obtain rfl := hasks hv (hk.view.trans (catchUp_view _ _))
    obtain ⟨poll, hadd, hsize⟩ := RoundChanges.add_ok.mp hj.weak
    have hcommittee : (r.react e).committee = r.committee := hk.committee
    refine ⟨poll, .inr ⟨m, hm, hadd⟩, by rw [hcommittee, hsize], poll.distinct, ?_⟩
    exact hpoll (congrArg Committee.members hcommittee) (hadded hm ha hadd)
  | @follow old asked _ hw hold hlt hmax hk =>
    obtain rfl := Option.some.inj (hv.symm.trans hold)
    obtain rfl := hasks hv (hk.view.trans (catchUp_view _ _))
    have hcommittee : (r.react e).committee = r.committee := hk.committee
    have hcert := (hordered.maxRound?_eq_some (Nat.succ_pos _) hmax).1
    refine ⟨_, .inl rfl, by rw [hcommittee]; exact hcert, Poll.distinct _, ?_⟩
    exact hpoll (congrArg Committee.members hcommittee) (hcounted.poll _)
  | @enter old asked m a own hm ha hq hn hav hk hp =>
    obtain rfl := Option.some.inj (hv.symm.trans ha.current)
    obtain rfl := hasks hv (hk.view.trans (congrArg some hav))
    obtain ⟨poll, hadd, hsize⟩ := RoundChanges.add_ok.mp hq.1
    have hmembers : (r.react e).committee.members = r.committee.members := by
      rw [hk.committee]
      rfl
    refine ⟨poll, .inr ⟨m, hm, hadd⟩, ?_, poll.distinct, hpoll hmembers (hadded hm ha hadd)⟩
    -- a quorum is more than a certificate
    rw [hsize, Committee.faults, Committee.size, hmembers]
    exact r.committee.faults_lt_quorum
  | leave hl =>
    obtain ⟨later, -, hlater, hseq, -⟩ := hl.view
    obtain rfl := Option.some.inj (hlater.symm.trans hs)
    exact absurd (hseq view hv) (UInt64.lt_irrefl _)

end Replica

namespace Pair

open Replica

attribute [local instance] Scheme.plain

theorem signer_eq {k : Signer} {start r : Replica MemoryLedger} {h : List (Moment MemoryLedger)}
    (hc : replica k = .ok start) (hr : Run start h r) : r.signer = k := by
  obtain ⟨-, -, hk, -⟩ := create_spec hc
  exact hr.signer.trans hk

def advisedEvents : List (Event MemoryLedger) := [.start] ++ hear (Message.roundChange second ⟨1, 5⟩)

/-- The first validator follows the second one when its time is up. -/
theorem timeout_follows_certificate_advised : ∃ start, replica first = .ok start ∧
    ∃ r, Run start (start.moments advisedEvents) r ∧
      Moment.signed ⟨r, .input (.timeout ⟨1, 0⟩)⟩ = (Message.roundChange first ⟨1, 5⟩).toList := by
  obtain ⟨start, hstart, hs, hv, hbelow, h5⟩ := exists_replica (k := first) (P := fun start =>
    (advisedEvents.foldl react start).started = true ∧
    (advisedEvents.foldl react start).view? = some ⟨1, 0⟩ ∧
    (Ledger.head (advisedEvents.foldl react start).ledger).number < 1 ∧
    ((advisedEvents.foldl react start).react (.input (.timeout ⟨1, 0⟩))).view? = some ⟨1, 5⟩)
    (by decide +kernel)
  have hr := moments_run start advisedEvents
  obtain ⟨round, hsigned, hview, -⟩ :=
    timeout_follows_certificate hstart hr hs hv hbelow (by decide)
  obtain rfl : round = 5 := congrArg View.round (Option.some.inj (hview.symm.trans h5))
  rw [signer_eq hstart hr] at hsigned
  exact ⟨start, hstart, _, hr, hsigned⟩

/-- What happens to the first validator if the second one asks for round 5 early, and if what it proposes
itself then is not valid. -/
def failingEvents : List (Event MemoryLedger) :=
  advisedEvents ++ [.input (.request unsealed), .process, .process]

/-- The first validator waits for round 1. Round 5 has been asked for by more members than may be faulty,
but when the time is up the validator asks for round 2. -/
theorem timeout_overlooks_certificate : ∃ start, replica first = .ok start ∧
    ∃ r, Run start (start.moments failingEvents) r ∧ r.started = true ∧ r.ready = [] ∧
      r.view? = some ⟨1, 1⟩ ∧ (Ledger.head r.ledger).number < 1 ∧ r.Wants ⟨1, 1⟩ 5 ∧
      (r.react (.input (.timeout ⟨1, 1⟩))).view? = some ⟨1, 2⟩ ∧
      ∃ c, Message.roundChange first ⟨1, 2⟩ = some c ∧ c.subject = .ok ⟨⟨1, 2⟩, 0⟩ ∧
        Moment.signed ⟨r, .input (.timeout ⟨1, 1⟩)⟩ = [c] := by
  obtain ⟨start, hstart, hs, hready, hv, hbelow, hcert, hmax, h2, hsome, hsigned⟩ :=
    exists_replica (k := first) (P := fun start =>
      (failingEvents.foldl react start).started = true ∧
      (failingEvents.foldl react start).ready = [] ∧
      (failingEvents.foldl react start).view? = some ⟨1, 1⟩ ∧
      (Ledger.head (failingEvents.foldl react start).ledger).number < 1 ∧
      (failingEvents.foldl react start).Certified 5 ∧
      (failingEvents.foldl react start).roundChanges.maxRound?
        ((failingEvents.foldl react start).committee.faults + 1) = some 5 ∧
      ((failingEvents.foldl react start).react (.input (.timeout ⟨1, 1⟩))).view? = some ⟨1, 2⟩ ∧
      (Message.roundChange first ⟨1, 2⟩).isSome ∧
      ∀ c ∈ Message.roundChange first ⟨1, 2⟩, c.subject = .ok ⟨⟨1, 2⟩, 0⟩ ∧
        Moment.signed ⟨failingEvents.foldl react start, .input (.timeout ⟨1, 1⟩)⟩ = [c])
      (by decide +kernel)
  obtain ⟨c, hc⟩ := Option.isSome_iff_exists.mp hsome
  have hr := moments_run start failingEvents
  obtain ⟨-, -, -, -, -, hattempt, -⟩ := create_spec hstart
  have hordered := hr.ordered (by simp [view?, hattempt]) _ hv
  have hwants : (failingEvents.foldl react start).Wants ⟨1, 1⟩ 5 :=
    .inl ⟨by decide, hcert, (hordered.maxRound?_eq_some (Nat.succ_pos _) hmax).2⟩
  exact ⟨start, hstart, _, hr, hs, hready, hv, hbelow, hwants, h2, c, hc, hsigned c hc⟩

def skippingEvents : List (Event MemoryLedger) :=
  [.start, .input (.timeout ⟨1, 0⟩), .process]

/-- It skips rounds to be with the second validator. -/
theorem skips_need_certificate_idle : ∃ start, replica first = .ok start ∧
    ∃ r, Run start (start.moments skippingEvents) r ∧ r.view? = some ⟨1, 1⟩ ∧
      ∃ c, Message.roundChange second ⟨1, 5⟩ = some c ∧
        (r.react (.input (.message ⟨c, Wire.encode c⟩))).view? = some ⟨1, 5⟩ ∧
        ∃ poll : Poll, 1 ≤ poll.size ∧ ∀ x ∈ poll.messages, x.Requests ⟨1, 5⟩ := by
  obtain ⟨start, hstart, hv, hsome, hskips⟩ := exists_replica (k := first) (P := fun start =>
    (skippingEvents.foldl react start).view? = some ⟨1, 1⟩ ∧
    (Message.roundChange second ⟨1, 5⟩).isSome ∧ ∀ c ∈ Message.roundChange second ⟨1, 5⟩,
      ((skippingEvents.foldl react start).react (.input (.message ⟨c, Wire.encode c⟩))).view? =
        some ⟨1, 5⟩) (by decide +kernel)
  obtain ⟨c, hc⟩ := Option.isSome_iff_exists.mp hsome
  have hr := moments_run start skippingEvents
  obtain ⟨poll, -, hsize, -, hpoll⟩ := skips_need_certificate hstart hr
    (.input (.message ⟨c, Wire.encode c⟩)) hv (hskips c hc) (by decide)
  exact ⟨start, hstart, _, hr, hv, c, hc, hskips c hc, poll, by omega, fun x hx => (hpoll x hx).1⟩

end Pair

end BlockAgreement
