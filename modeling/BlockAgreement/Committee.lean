import BlockAgreement.Scheme
import BlockAgreement.View

/-!
# The committee of validators

The validators that take part at one height, in ascending order of address, with the proposer of the
current round. `quorum` is the least number of members any two groups of which share more members than
may be faulty.
-/

set_option autoImplicit false

namespace BlockAgreement

inductive ProposerPolicy where
  /-- Every block and every round is the next validator's turn. -/
  | roundRobin
  /-- The proposer of the last block stays until a round fails. -/
  | sticky
  deriving DecidableEq, Repr

instance : Wire ProposerPolicy :=
  ⟨Codec.tagged (fun | .roundRobin => 0 | .sticky => 1)
    (fun t => if t = 0 then .ok .roundRobin else if t = 1 then .ok .sticky else .error (.unknownTag t))⟩

def insertAscending (a : Address) : List Address → List Address
  | [] => [a]
  | b :: bs => if a < b then a :: b :: bs else if a = b then b :: bs else b :: insertAscending a bs

theorem mem_insertAscending {a x : Address} {bs : List Address} :
    x ∈ insertAscending a bs ↔ x = a ∨ x ∈ bs := by
  induction bs with
  | nil => simp [insertAscending]
  | cons b bs ih =>
    simp only [insertAscending]
    split
    · simp
    · split
      · rename_i h; subst h; simp
      · simp only [List.mem_cons, ih]
        exact or_left_comm

theorem pairwise_insertAscending {a : Address} {bs : List Address} (h : bs.Pairwise (· < ·)) :
    (insertAscending a bs).Pairwise (· < ·) := by
  induction bs with
  | nil => simp [insertAscending]
  | cons b bs ih =>
    rw [List.pairwise_cons] at h
    simp only [insertAscending]
    split
    · rename_i hab
      refine List.pairwise_cons.mpr ⟨?_, List.pairwise_cons.mpr h⟩
      intro x hx
      rcases List.mem_cons.mp hx with rfl | hx
      · exact hab
      · exact BitVec.lt_trans hab (h.1 x hx)
    · split
      · exact List.pairwise_cons.mpr h
      · rename_i hab hne
        refine List.pairwise_cons.mpr ⟨?_, ih h.2⟩
        intro x hx
        rcases mem_insertAscending.mp hx with rfl | hx
        · have := mt BitVec.eq_of_toNat_eq hne
          rw [BitVec.lt_def] at *
          omega
        · exact h.1 x hx

structure Committee where
  members : List Address
  policy : ProposerPolicy
  /-- The proposer chosen last. Unknown in an empty committee and after the proposer has left. -/
  proposer : Option Address
  ascending : members.Pairwise (· < ·)
  proposer_mem : ∀ a ∈ proposer, a ∈ members

namespace Committee

def ofList (candidates : List Address) (policy : ProposerPolicy) : Committee :=
  let members := candidates.foldr insertAscending []
  have ascending : members.Pairwise (· < ·) := by
    show (candidates.foldr insertAscending []).Pairwise (· < ·)
    induction candidates with
    | nil => simp
    | cons a as ih => exact pairwise_insertAscending ih
  { members, policy, proposer := members.head?, ascending
    proposer_mem := fun _ h => List.mem_of_mem_head? h }

def size (c : Committee) : Nat := c.members.length

def isEmpty (c : Committee) : Bool := c.members.isEmpty

/-- How many faulty members the committee tolerates. -/
def faults (c : Committee) : Nat := (c.size - 1) / 3

/-- How many matching messages decide. -/
def quorum (c : Committee) : Nat := (c.size + c.faults) / 2 + 1

theorem quorum_congr {c d : Committee} (h : c.members = d.members) : c.quorum = d.quorum := by
  simp only [quorum, faults, size, h]

def contains (c : Committee) (a : Address) : Bool := c.members.contains a

theorem contains_iff {c : Committee} {a : Address} : c.contains a ↔ a ∈ c.members :=
  List.contains_iff_mem

def position? (c : Committee) (a : Address) : Option Nat := c.members.idxOf? a

def get? (c : Committee) (i : Nat) : Option Address := c.members[i]?

def isProposer (c : Committee) (a : Address) : Bool := c.proposer == some a

def add? (c : Committee) (a : Address) : Option Committee :=
  if a ∈ c.members then none
  else some
    { c with
      members := insertAscending a c.members
      ascending := pairwise_insertAscending c.ascending
      proposer_mem := fun x h => mem_insertAscending.mpr (.inr (c.proposer_mem x h)) }

def remove? (c : Committee) (a : Address) : Option Committee :=
  if a ∈ c.members then
    some
      { c with
        members := c.members.filter (· ≠ a)
        proposer := c.proposer.filter (· ≠ a)
        ascending := c.ascending.filter _
        proposer_mem := by
          intro x h
          rw [Option.mem_def, Option.filter_eq_some_iff] at h
          exact List.mem_filter.mpr ⟨c.proposer_mem x h.1, h.2⟩ }
  else none

theorem contains_add? {c : Committee} {a x : Address} :
    ((c.add? a).getD c).contains x ↔ x = a ∨ c.contains x := by
  simp only [add?, contains_iff]
  split
  · rename_i ha
    refine ⟨Or.inr, ?_⟩
    rintro (rfl | hx)
    · exact ha
    · exact hx
  · exact mem_insertAscending

theorem contains_remove? {c : Committee} {a x : Address} :
    ((c.remove? a).getD c).contains x ↔ x ≠ a ∧ c.contains x := by
  simp only [remove?, contains_iff]
  split
  · simp [and_comm]
  · rename_i ha
    refine ⟨fun hx => ⟨?_, hx⟩, And.right⟩
    rintro rfl
    exact ha hx

/-- The index of the member whose turn it is in `round` after a block by `last`. Without a last
block the rounds count from the first member; a last proposer that has left counts as the first. -/
def turn (c : Committee) (last : Option Address) (round : Round) : Nat :=
  let shift :=
    match last with
    | none => 0
    | some a => (c.position? a).getD 0 + (match c.policy with | .roundRobin => 1 | .sticky => 0)
  (shift + round.toNat % c.size) % c.size

/-- Chooses the proposer of `round` after a block by `last`. -/
def choose (c : Committee) (last : Option Address) (round : Round) : Committee :=
  { c with
    proposer := c.members[c.turn last round]?
    proposer_mem := fun _ h => List.mem_of_getElem? h }

theorem choose_congr {c d : Committee} (hm : c.members = d.members) (hp : c.policy = d.policy)
    (last : Option Address) (round : Round) :
    (c.choose last round).proposer = (d.choose last round).proposer := by
  simp only [choose, turn, position?, size, hm, hp]

end Committee

end BlockAgreement
