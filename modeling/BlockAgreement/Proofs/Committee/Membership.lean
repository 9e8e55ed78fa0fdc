import BlockAgreement.Proofs.Committee.Quorum
import BlockAgreement.Proofs.Committee.Rotation
import BlockAgreement.Proofs.Committee.Search
import Mathlib.Data.Finset.Sort

/-!
# A committee is a set

Told without lists: a committee is a set of addresses, one of which may be the proposer, and members are
numbered from the lowest address up. A committee gives the answers of that set to any series of calls.
So its history is forgotten: two committees of the same members are the same list, and choose the same
proposers.
-/

set_option autoImplicit false

namespace BlockAgreement

namespace Committee

/-- What is asked of a committee. -/
inductive Call where
  | add (a : Address)
  | remove (a : Address)
  | contains (a : Address)
  | position (a : Address)
  | get (i : Nat)
  | isProposer (a : Address)
  | choose (last : Option Address) (round : Round)

inductive Answer where
  | done (done : Bool)
  | index (i : Option Nat)
  | member (a : Option Address)
  deriving DecidableEq

def call (c : Committee) : Call → Answer × Committee
  | .add a => (.done (c.add? a).isSome, (c.add? a).getD c)
  | .remove a => (.done (c.remove? a).isSome, (c.remove? a).getD c)
  | .contains a => (.done (c.contains a), c)
  | .position a => (.index (c.position? a), c)
  | .get i => (.member (c.get? i), c)
  | .isProposer a => (.done (c.isProposer a), c)
  | .choose last round => (.member (c.choose last round).proposer, c.choose last round)

def calls (c : Committee) : List Call → List Answer × Committee
  | [] => ([], c)
  | q :: qs => ((c.call q).1 :: (calls (c.call q).2 qs).1, (calls (c.call q).2 qs).2)

end Committee

/-- A set of addresses, one of which may be the proposer. -/
structure Roll where
  members : Finset Address
  policy : ProposerPolicy
  proposer : Option Address

namespace Roll

open Committee

def seats (r : Roll) : List Address := r.members.sort (· ≤ ·)

def ofList (candidates : List Address) (policy : ProposerPolicy) : Roll where
  members := candidates.toFinset
  policy
  proposer := (candidates.toFinset.sort (· ≤ ·)).head?

def position? (r : Roll) (a : Address) : Option Nat :=
  if a ∈ r.members then some {x ∈ r.members | x < a}.card else none

/-- The number from which rounds count the members on after a block by `last`: the first one, that of the
last proposer, or the next one. A last proposer that is no member counts as the first member. -/
def start (r : Roll) : Option Address → Nat
  | none => 0
  | some a => (r.position? a).getD 0 + (match r.policy with | .sticky => 0 | .roundRobin => 1)

def nominee (r : Roll) (last : Option Address) (round : Round) : Option Address :=
  r.seats[(r.start last + round.toNat) % r.members.card]?

def call (r : Roll) : Call → Answer × Roll
  | .add a => (.done (a ∉ r.members), { r with members := insert a r.members })
  | .remove a =>
    (.done (a ∈ r.members),
      { r with members := r.members.erase a, proposer := r.proposer.filter (· ≠ a) })
  | .contains a => (.done (a ∈ r.members), r)
  | .position a => (.index (r.position? a), r)
  | .get i => (.member r.seats[i]?, r)
  | .isProposer a => (.done (r.proposer = some a), r)
  | .choose last round => (.member (r.nominee last round), { r with proposer := r.nominee last round })

def calls (r : Roll) : List Call → List Answer × Roll
  | [] => ([], r)
  | q :: qs => ((r.call q).1 :: (calls (r.call q).2 qs).1, (calls (r.call q).2 qs).2)

end Roll

namespace Committee

variable {c d : Committee} {r : Roll} {a : Address}

theorem sort_members (c : Committee) : c.members.toFinset.sort (· ≤ ·) = c.members :=
  (List.toFinset_sort (· ≤ ·) c.members_nodup).mpr (c.ascending.imp BitVec.le_of_lt)

theorem members_eq_of_contains (h : ∀ a, c.contains a = d.contains a) : c.members = d.members := by
  have hset : c.members.toFinset = d.members.toFinset := by
    ext a
    rw [List.mem_toFinset, List.mem_toFinset, ← contains_iff, ← contains_iff, h]
  rw [← sort_members c, hset, sort_members]

theorem mem_ofList {candidates : List Address} {policy : ProposerPolicy} :
    a ∈ (ofList candidates policy).members ↔ a ∈ candidates := by
  show a ∈ candidates.foldr insertAscending [] ↔ a ∈ candidates
  induction candidates with
  | nil => rfl
  | cons b bs ih => rw [List.foldr_cons, mem_insertAscending, ih, List.mem_cons]

structure Lists (c : Committee) (r : Roll) : Prop where
  members : c.members.toFinset = r.members
  policy : c.policy = r.policy
  proposer : c.proposer = r.proposer

namespace Lists

theorem mem_iff (h : Lists c r) : a ∈ c.members ↔ a ∈ r.members := by
  rw [← h.members, List.mem_toFinset]

theorem seats (h : Lists c r) : c.members = r.seats := by
  rw [Roll.seats, ← h.members, sort_members]

theorem card (h : Lists c r) : c.size = r.members.card := by
  rw [← h.members, card_members]

theorem rank_eq (h : Lists c r) (a : Address) : rank a c.members = {x ∈ r.members | x < a}.card := by
  have hbelow : (c.members.filter fun x => decide (x < a)).toFinset = {x ∈ r.members | x < a} := by
    rw [List.toFinset_filter, h.members]
    simp only [decide_eq_true_eq]
  rw [← hbelow, List.toFinset_card_of_nodup (c.members_nodup.filter _), rank,
    List.countP_eq_length_filter]

theorem position? (h : Lists c r) (a : Address) : c.position? a = r.position? a := by
  rw [position?_eq, Roll.position?, h.rank_eq, if_congr h.mem_iff rfl rfl]

theorem start (h : Lists c r) (last : Option Address) : c.start last = r.start last := by
  cases last with
  | none => rfl
  | some a =>
    rw [Committee.start, Roll.start, h.position?, h.policy]
    cases r.policy <;> rfl

theorem nominee (h : Lists c r) (last : Option Address) (round : Round) :
    (c.choose last round).proposer = r.nominee last round := by
  show c.members[c.turn last round]? = r.nominee last round
  rw [turn_eq, h.start, h.card, h.seats, Roll.nominee]

theorem add (h : Lists c r) (a : Address) :
    (c.add? a).isSome = decide (a ∉ r.members) ∧
      Lists ((c.add? a).getD c) { r with members := insert a r.members } := by
  by_cases ha : a ∈ c.members
  · have hr := h.mem_iff.mp ha
    rw [add?, if_pos ha]
    refine ⟨by simpa using hr, ?_, h.policy, h.proposer⟩
    show c.members.toFinset = insert a r.members
    rw [Finset.insert_eq_of_mem hr, h.members]
  · rw [add?, if_neg ha]
    refine ⟨by simpa using mt h.mem_iff.mpr ha, ?_, h.policy, h.proposer⟩
    ext x
    show x ∈ (insertAscending a c.members).toFinset ↔ x ∈ insert a r.members
    rw [List.mem_toFinset, mem_insertAscending, Finset.mem_insert, h.mem_iff]

theorem remove (h : Lists c r) (a : Address) :
    (c.remove? a).isSome = decide (a ∈ r.members) ∧
      Lists ((c.remove? a).getD c)
        { r with members := r.members.erase a, proposer := r.proposer.filter (· ≠ a) } := by
  by_cases ha : a ∈ c.members
  · rw [remove?, if_pos ha]
    refine ⟨by simpa using h.mem_iff.mp ha, ?_, h.policy, congrArg (Option.filter _) h.proposer⟩
    ext x
    show x ∈ (c.members.filter (· ≠ a)).toFinset ↔ x ∈ r.members.erase a
    rw [List.mem_toFinset, List.mem_filter, Finset.mem_erase, h.mem_iff, decide_eq_true_eq, and_comm]
  · have hr := mt h.mem_iff.mpr ha
    rw [remove?, if_neg ha]
    refine ⟨by simpa using hr, ?_, h.policy, ?_⟩
    · show c.members.toFinset = r.members.erase a
      rw [Finset.erase_eq_of_notMem hr, h.members]
    · -- The proposer is a member, so it is another address.
      show c.proposer = r.proposer.filter (· ≠ a)
      rw [← h.proposer]
      cases hp : c.proposer with
      | none => rfl
      | some x =>
        have hne : x ≠ a := fun he => ha (he ▸ c.proposer_mem x hp)
        rw [Option.filter, if_pos (decide_eq_true hne)]

theorem call (h : Lists c r) (q : Call) :
    (c.call q).1 = (r.call q).1 ∧ Lists (c.call q).2 (r.call q).2 := by
  cases q with
  | add a => exact (h.add a).imp_left (congrArg Answer.done)
  | remove a => exact (h.remove a).imp_left (congrArg Answer.done)
  | contains a =>
    refine ⟨congrArg Answer.done ?_, h⟩
    rw [Bool.eq_iff_iff, contains_iff, h.mem_iff, decide_eq_true_eq]
  | position a => exact ⟨congrArg Answer.index (h.position? a), h⟩
  | get i => exact ⟨congrArg Answer.member (congrArg (·[i]?) h.seats), h⟩
  | isProposer a =>
    refine ⟨congrArg Answer.done ?_, h⟩
    rw [isProposer, h.proposer]
    exact beq_eq_decide r.proposer (some a)
  | choose last round =>
    exact ⟨congrArg Answer.member (h.nominee last round), h.members, h.policy, h.nominee last round⟩

theorem calls (h : Lists c r) (qs : List Call) :
    (c.calls qs).1 = (r.calls qs).1 ∧ Lists (c.calls qs).2 (r.calls qs).2 := by
  induction qs generalizing c r with
  | nil => exact ⟨rfl, h⟩
  | cons q qs ih =>
    obtain ⟨hanswer, hnext⟩ := h.call q
    obtain ⟨hanswers, hlast⟩ := ih hnext
    exact ⟨by rw [Committee.calls, Roll.calls, hanswer, hanswers], hlast⟩

end Lists

theorem ofList_lists (candidates : List Address) (policy : ProposerPolicy) :
    Lists (ofList candidates policy) (.ofList candidates policy) := by
  have hset : (ofList candidates policy).members.toFinset = candidates.toFinset := by
    ext a
    rw [List.mem_toFinset, List.mem_toFinset, mem_ofList]
  refine ⟨hset, rfl, ?_⟩
  show (ofList candidates policy).members.head? = (candidates.toFinset.sort (· ≤ ·)).head?
  rw [← hset, sort_members]

theorem call_refused {q : Call} (h : (c.call q).1 = .done false) : (c.call q).2 = c := by
  cases q with
  | add a =>
    have hnone : c.add? a = none := by simpa [call] using h
    rw [call, hnone]
    rfl
  | remove a =>
    have hnone : c.remove? a = none := by simpa [call] using h
    rw [call, hnone]
    rfl
  | contains a => rfl
  | position a => rfl
  | get i => rfl
  | isProposer a => rfl
  | choose last round => cases h

/-- After any calls, a committee has given the answers of its set, and is the list of that set. Members
are looked up by halving, which finds what is there as long as the list ascends. Two committees of the
same members choose the same proposers, whatever they have been asked before. -/
theorem calls_refine_roll (candidates : List Address) (policy : ProposerPolicy) (qs : List Call) :
    let (answers, c) := (ofList candidates policy).calls qs
    let (expected, r) := (Roll.ofList candidates policy).calls qs
    (answers = expected ∧ c.members = r.seats ∧ c.proposer = r.proposer) ∧
      (c.members.Pairwise (· < ·) ∧ ∀ a ∈ c.proposer, a ∈ c.members) ∧
      (∀ q, (c.call q).1 = .done false → (c.call q).2 = c) ∧
      (∀ i a, c.get? i = some a ↔ c.position? a = some i) ∧
      (∀ a, c.Searched a) ∧
      ∀ others policy' qs', let d := ((ofList others policy').calls qs').2
        (∀ a, d.contains a = c.contains a) → d.policy = c.policy → d.members = c.members ∧
          ∀ last round, (d.choose last round).proposer = (c.choose last round).proposer := by
  obtain ⟨hanswers, hlast⟩ := (ofList_lists candidates policy).calls qs
  refine ⟨⟨hanswers, hlast.seats, hlast.proposer⟩, ⟨ascending _, proposer_mem _⟩, fun q => call_refused,
    fun i a => get?_eq_some_iff, searched _, ?_⟩
  intro others policy' qs' d hsame hpolicy
  have hmembers : d.members = ((ofList candidates policy).calls qs).2.members :=
    members_eq_of_contains hsame
  exact ⟨hmembers, choose_congr hmembers hpolicy⟩

/-- A committee that a member has left and joined again, and one that others have come to make the
same. -/
theorem calls_refine_roll_rejoined :
    let c := ((ofList [3, 1, 2, 3] .sticky).calls [.choose (some 3) 1, .remove 1, .add 1]).2
    let d := ((ofList [2, 5] .sticky).calls [.add 3, .add 1, .remove 5, .add 3]).2
    d.members = c.members ∧
      ∀ last round, (d.choose last round).proposer = (c.choose last round).proposer := by
  intro c d
  refine (calls_refine_roll [3, 1, 2, 3] .sticky [.choose (some 3) 1, .remove 1, .add 1]).2.2.2.2.2
    [2, 5] .sticky [.add 3, .add 1, .remove 5, .add 3] (fun a => ?_) rfl
  exact congrArg (List.contains · a) (by decide : d.members = c.members)

end Committee

end BlockAgreement
