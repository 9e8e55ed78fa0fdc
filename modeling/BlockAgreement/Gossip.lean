import BlockAgreement.Committee
import BlockAgreement.Lru

/-!
# Gossip

What a validator remembers of the messages that are around: the payloads that it has handled itself,
and for each peer the payloads that the peer has, because it sent them or was sent them. Payloads are
known by their hashes. All memories are bounded.
-/

set_option autoImplicit false

namespace BlockAgreement

structure Gossip where
  /-- How many payloads are remembered for a peer. -/
  perPeer : Nat
  peers : Lru Address (Lru Digest Unit)
  known : Lru Digest Unit

namespace Gossip

def empty (peers messages : Nat) : Gossip := ⟨messages, .empty peers, .empty messages⟩

def peerHas (g : Gossip) (peer : Address) (payload : Digest) : Bool :=
  match g.peers.peek? peer with
  | none => false
  | some has => has.contains payload

/-- Records that the peer has the payload, and says whether that was known. -/
def markPeer (g : Gossip) (peer : Address) (payload : Digest) : Bool × Gossip :=
  let has := ((g.peers.peek? peer).getD (.empty g.perPeer)).mark payload
  (has.1, { g with peers := g.peers.put peer has.2 })

def isKnown (g : Gossip) (payload : Digest) : Bool := g.known.contains payload

/-- Records that the payload has been handled, and says whether it had been before. -/
def markKnown (g : Gossip) (payload : Digest) : Bool × Gossip :=
  let known := g.known.mark payload
  (known.1, { g with known := known.2 })

def offer (g : Gossip) (payload : Digest) : List Address → List Address × Gossip
  | [] => ([], g)
  | peer :: peers =>
    match g.markPeer peer payload with
    | (true, g) => g.offer payload peers
    | (false, g) =>
      let (rest, g) := g.offer payload peers
      (peer :: rest, g)

/-- The members other than `me` that a payload has to be sent to, in ascending order. All of them are
marked as having it, and `me` as having handled it. -/
def spread (g : Gossip) (me : Address) (committee : Committee) (payload : Digest) :
    List Address × Gossip :=
  (g.markKnown payload).2.offer payload (committee.members.filter (· ≠ me))

end Gossip

end BlockAgreement
