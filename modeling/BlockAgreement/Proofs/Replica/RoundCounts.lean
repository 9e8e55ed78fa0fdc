import BlockAgreement.Proofs.Replica.Certificates
import Mathlib.Data.Finset.Card

/-!
# What the count of a round says

Told without polls: the count of a round is how many members have asked for it since it was cleared, and
the highest round is looked for among these counts. That outsiders leave empty polls behind, that a
member may ask again with another message and that empty polls are cleared too shows in no answer.
-/

set_option autoImplicit false

namespace BlockAgreement

theorem Poll.toFinset_senders_add (p : Poll) (m : Message) :
    ((p.add m).toOption.getD p).senders.toFinset =
      if m.sender ∈ p.committee.members then insert m.sender p.senders.toFinset
      else p.senders.toFinset := by
  by_cases hm : m.sender ∈ p.committee.members
  · obtain ⟨q, hq, -⟩ := add_member hm
    rw [hq, if_pos hm]
    rcases add_cases hq with ⟨-, ⟨hs, rfl⟩ | ⟨-, -, -, hmessages⟩⟩
    · exact (Finset.insert_eq_of_mem (List.mem_toFinset.mpr hs)).symm
    · ext a
      simp [Except.toOption, senders, hmessages]
  · rw [add_of_outsider hm, if_neg hm]
    rfl

namespace RoundChanges

/-- What is asked of the polls of a sequence. A threshold is never 0: the empty polls would meet it. -/
inductive Call where
  | ask (round : Round) (m : Message)
  | clear (round : Round)
  | highest (threshold : Nat) (positive : 0 < threshold)

inductive Answer where
  | counted (count : Except PollFault Nat)
  | cleared
  | round (round : Option Round)

def call (rc : RoundChanges) : Call → Answer × RoundChanges
  | .ask round m => (.counted (rc.add round m).1, (rc.add round m).2)
  | .clear round => (.cleared, rc.clear round)
  | .highest threshold _ => (.round (rc.maxRound? threshold), rc)

def calls (rc : RoundChanges) (cs : List Call) : RoundChanges := cs.foldr (fun c rc => (rc.call c).2) rc

def Call.clears (round : Round) : Call → Bool
  | .clear above => round < above
  | _ => false

def Call.asker? (round : Round) : Call → Option Address
  | .ask asked m => if asked = round then some m.sender else none
  | _ => none

def since (round : Round) (cs : List Call) : List Call := cs.takeWhile fun c => !c.clears round

def askers (committee : Committee) (cs : List Call) (round : Round) : Finset Address :=
  ((since round cs).filterMap (Call.asker? round)).toFinset ∩ committee.members.toFinset

section Spec

variable {committee : Committee} {cs ds : List Call}

@[simp] theorem askers_nil (committee : Committee) (round : Round) : askers committee [] round = ∅ := rfl

theorem askers_ask (committee : Committee) (cs : List Call) (asked round : Round) (m : Message) :
    askers committee (.ask asked m :: cs) round =
      if asked = round ∧ m.sender ∈ committee.members then insert m.sender (askers committee cs round)
      else askers committee cs round := by
  have hsince : since round (.ask asked m :: cs) = .ask asked m :: since round cs := rfl
  unfold askers
  rw [hsince, List.filterMap_cons, Call.asker?]
  by_cases hround : asked = round
  · by_cases hm : m.sender ∈ committee.members <;> simp [hround, hm]
  · simp [hround]

theorem askers_clear (committee : Committee) (cs : List Call) (above round : Round) :
    askers committee (.clear above :: cs) round =
      if round < above then ∅ else askers committee cs round := by
  unfold askers since
  rw [List.takeWhile_cons, Call.clears]
  by_cases hround : round < above <;> simp [hround, List.filterMap_cons, Call.asker?]

theorem askers_highest (committee : Committee) (cs : List Call) (threshold : Nat) (h : 0 < threshold)
    (round : Round) : askers committee (.highest threshold h :: cs) round = askers committee cs round :=
  rfl

theorem askers_congr (h : askers committee cs = askers committee ds) (later : List Call) :
    askers committee (later ++ cs) = askers committee (later ++ ds) := by
  induction later with
  | nil => exact h
  | cons c later ih =>
    funext round
    cases c with
    | ask asked m => simp only [List.cons_append, askers_ask, ih]
    | clear above => simp only [List.cons_append, askers_clear, ih]
    | highest threshold positive => simp only [List.cons_append, askers_highest, ih]

end Spec

variable {committee : Committee} {cs ds : List Call} {rc sc : RoundChanges} {round : Round} {m : Message}

theorem Ordered.mem_senders (h : rc.Ordered) {a : Address} :
    a ∈ (rc.poll round).senders ↔ ∃ p, (round, p) ∈ rc.polls ∧ a ∈ p.senders := by
  simp only [← SortedMap.Ascending.find?_eq_some h]
  rw [poll]
  cases rc.polls.find? round with
  | none => simp [Poll.empty, Poll.senders]
  | some p => simp

theorem Ordered.mem_senders_clear (h : rc.Ordered) (above : Round) {a : Address} :
    a ∈ ((rc.clear above).poll round).senders ↔ ¬ round < above ∧ a ∈ (rc.poll round).senders := by
  rw [(h.clear above).mem_senders, h.mem_senders]
  constructor
  · rintro ⟨p, hp, ha⟩
    obtain ⟨hp, hkept⟩ := List.mem_filter.mp hp
    rw [Bool.and_eq_true, decide_eq_true_iff] at hkept
    exact ⟨UInt64.not_lt.mpr hkept.1, p, hp, ha⟩
  · rintro ⟨hround, p, hp, ha⟩
    have hne : p.isEmpty = false := by
      rw [Poll.isEmpty, List.isEmpty_eq_false_iff]
      rintro hempty
      rw [Poll.senders, hempty] at ha
      cases ha
    refine ⟨p, List.mem_filter.mpr ⟨hp, ?_⟩, ha⟩
    simpa [hne] using hround

/-- The polls are in order, each of the committee, and have heard those that have asked since their
round was cleared. -/
structure Counts (committee : Committee) (cs : List Call) (rc : RoundChanges) : Prop where
  ordered : rc.Ordered
  seats : rc.committee = committee
  polls : rc.All fun _ p => p.committee = committee
  senders : ∀ round, (rc.poll round).senders.toFinset = askers committee cs round

namespace Counts

theorem poll_committee (h : Counts committee cs rc) (round : Round) :
    (rc.poll round).committee = committee :=
  h.polls.poll h.seats

theorem count (h : Counts committee cs rc) (round : Round) :
    rc.count round = (askers committee cs round).card := by
  rw [← h.senders round, Poll.senders, List.toFinset_card_of_nodup (rc.poll round).distinct,
    List.length_map]
  rfl

theorem empty (sequence : Height) (committee : Committee) :
    Counts committee [] (.empty sequence committee) where
  ordered := empty_ordered sequence committee
  seats := rfl
  polls := all_empty sequence committee
  senders _ := rfl

theorem ask (h : Counts committee cs rc) (round : Round) (m : Message) :
    Counts committee (.ask round m :: cs) (rc.add round m).2 where
  ordered := h.ordered.add round m
  seats := (add_committee rc round m).trans h.seats
  polls := h.polls.add (h.poll_committee round) fun p hp =>
    (Poll.add_spec hp).2.1.trans (h.poll_committee round)
  senders other := by
    rw [poll_add, askers_ask]
    by_cases hround : round = other
    · subst hround
      simp only [true_and, if_true, Poll.toFinset_senders_add, h.poll_committee, h.senders]
    · rw [if_neg hround, if_neg fun h => hround h.1, h.senders]

theorem clear (h : Counts committee cs rc) (above : Round) :
    Counts committee (.clear above :: cs) (rc.clear above) where
  ordered := h.ordered.clear above
  seats := h.seats
  polls := h.polls.clear fun _ _ _ hp => hp
  senders round := by
    ext a
    rw [List.mem_toFinset, h.ordered.mem_senders_clear, askers_clear, ← h.senders]
    by_cases hround : round < above <;> simp [hround]

theorem call (h : Counts committee cs rc) (c : Call) : Counts committee (c :: cs) (rc.call c).2 := by
  cases c with
  | ask round m => exact h.ask round m
  | clear above => exact h.clear above
  | highest threshold positive => exact ⟨h.ordered, h.seats, h.polls, h.senders⟩

theorem calls (sequence : Height) (committee : Committee) (cs : List Call) :
    Counts committee cs ((RoundChanges.empty sequence committee).calls cs) := by
  induction cs with
  | nil => exact .empty sequence committee
  | cons c cs ih => exact ih.call c

theorem add (h : Counts committee cs rc) (round : Round) (m : Message) :
    (rc.add round m).1 = if m.sender ∈ committee.members
      then .ok (askers committee (.ask round m :: cs) round).card
      else .error (.unauthorizedAddress m.sender) := by
  have hcommittee := h.poll_committee round
  split
  · rename_i hm
    obtain ⟨p, hp, -⟩ := Poll.add_member (p := rc.poll round) (m := m) (hcommittee ▸ hm)
    have hanswer := add_ok.mpr ⟨p, hp, rfl⟩
    rw [hanswer, ← (h.ask round m).count round, (count_add_self hanswer).1]
  · rename_i hm
    rw [RoundChanges.add, Poll.add_of_outsider (hcommittee ▸ hm)]

theorem maxRound?_eq_some (h : Counts committee cs rc) {threshold : Nat} (hpos : 0 < threshold) :
    rc.maxRound? threshold = some round ↔ threshold ≤ (askers committee cs round).card ∧
      ∀ other, threshold ≤ (askers committee cs other).card → other ≤ round := by
  simp only [← h.count]
  refine ⟨h.ordered.maxRound?_eq_some hpos, fun ⟨hround, hhighest⟩ => ?_⟩
  cases hmax : rc.maxRound? threshold with
  | none => exact absurd (h.ordered.maxRound?_eq_none hpos hmax round) (Nat.not_lt.mpr hround)
  | some highest =>
    obtain ⟨hle, hall⟩ := h.ordered.maxRound?_eq_some hpos hmax
    exact congrArg some (UInt64.le_antisymm (hhighest highest hle) (hall round hround))

theorem maxRound?_eq_none (h : Counts committee cs rc) {threshold : Nat} (hpos : 0 < threshold) :
    rc.maxRound? threshold = none ↔ ∀ round, (askers committee cs round).card < threshold := by
  simp only [← h.count]
  refine ⟨h.ordered.maxRound?_eq_none hpos, fun hnone => Option.eq_none_iff_forall_ne_some.mpr ?_⟩
  intro round hmax
  exact Nat.not_le.mpr (hnone round) (h.ordered.maxRound?_eq_some hpos hmax).1

theorem answer_congr (h : Counts committee cs rc) (hs : Counts committee ds sc)
    (heq : askers committee cs = askers committee ds) (c : Call) : (rc.call c).1 = (sc.call c).1 := by
  cases c with
  | ask round m =>
    have hask :
        askers committee (.ask round m :: cs) round = askers committee (.ask round m :: ds) round :=
      congrFun (askers_congr heq [.ask round m]) round
    simp only [RoundChanges.call, h.add, hs.add, hask]
  | clear above => rfl
  | highest threshold positive =>
    refine congrArg Answer.round (Option.ext fun round => ?_)
    rw [h.maxRound?_eq_some positive, hs.maxRound?_eq_some positive, heq]

end Counts

/-- After any calls, a member that asks for a round is told how many members have asked for it since it
was cleared. Anybody else is refused, and no answer after that is different for it. The highest round
for a threshold is the greatest one that as many members have asked for, if there is one. -/
theorem counts_since_cleared (sequence : Height) (committee : Committee) (cs : List Call) :
    (∀ round m, m.sender ∈ committee.members →
      (((empty sequence committee).calls cs).add round m).1 =
        .ok (askers committee (.ask round m :: cs) round).card) ∧
    (∀ round m, m.sender ∉ committee.members →
      (((empty sequence committee).calls cs).add round m).1 = .error (.unauthorizedAddress m.sender) ∧
      ∀ later c, (((empty sequence committee).calls (later ++ .ask round m :: cs)).call c).1 =
        (((empty sequence committee).calls (later ++ cs)).call c).1) ∧
    ∀ threshold, 0 < threshold →
      (∀ round, ((empty sequence committee).calls cs).maxRound? threshold = some round ↔
        threshold ≤ (askers committee cs round).card ∧
          ∀ other, threshold ≤ (askers committee cs other).card → other ≤ round) ∧
      (((empty sequence committee).calls cs).maxRound? threshold = none ↔
        ∀ round, (askers committee cs round).card < threshold) := by
  have hcounts := Counts.calls sequence committee
  refine ⟨fun round m hm => ?_, fun round m hm => ⟨?_, fun later c => ?_⟩, fun threshold hpos => ?_⟩
  · rw [(hcounts cs).add, if_pos hm]
  · rw [(hcounts cs).add, if_neg hm]
  · have hsame : askers committee (.ask round m :: cs) = askers committee cs := by
      funext other
      rw [askers_ask, if_neg fun h => hm h.2]
    exact (hcounts _).answer_congr (hcounts _) (askers_congr hsame later) c
  · exact ⟨fun round => (hcounts cs).maxRound?_eq_some hpos, (hcounts cs).maxRound?_eq_none hpos⟩

end RoundChanges

namespace Pair

open RoundChanges

def requestOf (a : Address) (body : Bytes) : Message := ⟨.roundChange, body, a, .empty, none⟩

/-- Of two validators the first one asks for round 5 twice, for round 2 and, after the rounds below 3
are cleared, for round 2 again. The second one asks for round 5 too, and an outsider for round 9. The
last call stands first. -/
def roundCalls : List Call :=
  [.ask 5 (requestOf 2 []), .ask 2 (requestOf 1 []), .clear 3, .ask 2 (requestOf 1 []),
    .ask 9 (requestOf 3 []), .ask 5 (requestOf 1 [7]), .ask 5 (requestOf 1 [])]

/-- If the second validator asks for round 2 as well, both have asked for it. Another request of the
outsider is refused. Both have asked for round 5 and for no higher round, and there are not three. -/
theorem counts_since_cleared_pair :
    let committee : Committee := .ofList [1, 2] .roundRobin
    let polls := (empty 1 committee).calls roundCalls
    (polls.add 2 (requestOf 2 [])).1 = .ok 2 ∧
      (polls.add 9 (requestOf 3 [])).1 = .error (.unauthorizedAddress 3) ∧
      (((empty 1 committee).calls ([.clear 4] ++ .ask 9 (requestOf 3 []) :: roundCalls)).call
        (.ask 5 (requestOf 1 [8]))).1 =
          (((empty 1 committee).calls ([.clear 4] ++ roundCalls)).call (.ask 5 (requestOf 1 [8]))).1 ∧
      (∀ round, 2 ≤ (askers committee roundCalls round).card → round ≤ 5) ∧
      ∀ round, (askers committee roundCalls round).card < 3 := by
  intro committee polls
  obtain ⟨hmember, houtsider, hhighest⟩ := counts_since_cleared 1 committee roundCalls
  have hcount := hmember 2 (requestOf 2 []) (by decide)
  have hcard : (askers committee (.ask 2 (requestOf 2 []) :: roundCalls) 2).card = 2 := by decide
  obtain ⟨hrefused, hsame⟩ := houtsider 9 (requestOf 3 []) (by decide)
  have hfive := ((hhighest 2 (by decide)).1 5).mp (by decide)
  have hnone := (hhighest 3 (by decide)).2.mp (by decide)
  exact ⟨hcount.trans (congrArg Except.ok hcard), hrefused, hsame [.clear 4] _, hfive.2, hnone⟩

end Pair

end BlockAgreement
