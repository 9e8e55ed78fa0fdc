import BlockAgreement.Poll
import BlockAgreement.SortedMap

/-!
# Requests for other rounds

The RoundChange messages of one sequence, a poll for each round that they ask for.
-/

set_option autoImplicit false

namespace BlockAgreement

structure RoundChanges where
  sequence : Height
  committee : Committee
  polls : SortedMap Round Poll

namespace RoundChanges

def empty (sequence : Height) (committee : Committee) : RoundChanges := ⟨sequence, committee, []⟩

def poll (rc : RoundChanges) (round : Round) : Poll :=
  (rc.polls.find? round).getD (.empty ⟨rc.sequence, round⟩ rc.committee)

def count (rc : RoundChanges) (round : Round) : Nat := (rc.poll round).size

/-- Counts a request and says how many members have asked for the round now. A refused one leaves an
empty poll behind. -/
def add (rc : RoundChanges) (round : Round) (m : Message) : Except PollFault Nat × RoundChanges :=
  match (rc.poll round).add m with
  | .ok poll => (.ok poll.size, { rc with polls := rc.polls.insert round poll })
  | .error e => (.error e, { rc with polls := rc.polls.insert round (rc.poll round) })

theorem poll_add (rc : RoundChanges) (round other : Round) (m : Message) :
    (rc.add round m).2.poll other =
      if round = other then ((rc.poll round).add m).toOption.getD (rc.poll round) else rc.poll other := by
  unfold add
  split <;> rename_i hp <;> rw [hp] <;> simp only [poll, SortedMap.find?_insert] <;> split <;> rfl

def clear (rc : RoundChanges) (round : Round) : RoundChanges :=
  { rc with polls := rc.polls.filter fun e => decide (round ≤ e.1) && !e.2.isEmpty }

def maxRound? (rc : RoundChanges) (threshold : Nat) : Option Round :=
  (rc.polls.reverse.find? fun e => threshold ≤ e.2.size).map (·.1)

end RoundChanges

end BlockAgreement
