import BlockAgreement.Governance.Snapshot

/-!
# Candidates

The changes of membership that this validator stands for. One that is still meaningful is voted for in
every header that the validator prepares.
-/

set_option autoImplicit false

namespace BlockAgreement

abbrev Candidates := SortedMap Address Bool

namespace Candidates

def propose (c : Candidates) (target : Address) (authorize : Bool) : Candidates :=
  c.insert target authorize

def discard (c : Candidates) (target : Address) : Candidates := c.erase target

def meaningful (c : Candidates) (s : Snapshot) : List MembershipVote :=
  (c.filter fun (target, authorize) => s.isMeaningful target authorize).map fun (t, a) => ⟨t, a⟩

def pick (c : Candidates) (s : Snapshot) (draw : Nat) : Option MembershipVote :=
  let votes := c.meaningful s
  votes[draw % votes.length]?

end Candidates

end BlockAgreement
