import BlockAgreement.Backlog

/-!
# The inbox

The bounded queue of inputs in front of a replica. Messages from peers either wait for room or are
dropped, as configured; inputs of the validator itself always wait for room. A sender that has to wait
is told so and nothing is queued: it waits outside and hands the input in again.
-/

set_option autoImplicit false

namespace BlockAgreement

inductive Input where
  /-- The block builder wants this block proposed. -/
  | request (block : Block)
  | message (delivery : Delivery)
  /-- The timer of the view ran out. -/
  | timeout (view : View)
  /-- A block was appended to the ledger by someone else. -/
  | headMoved
  deriving DecidableEq, Repr

/-- What happens to a message from a peer when the inbox is full. -/
inductive Overflow where
  | wait
  | dropIncoming
  deriving DecidableEq, Repr

inductive Receipt where
  | queued
  | refused
  | mustWait
  deriving DecidableEq, Repr

structure Inbox where
  capacity : Nat
  overflow : Overflow
  queue : List Input
  isOpen : Bool
  deriving DecidableEq, Repr

namespace Inbox

def empty (capacity : Nat) (overflow : Overflow) : Inbox := ⟨capacity, overflow, [], true⟩

/-- Queues an input, waiting for room if there is none. -/
def deliver (b : Inbox) (i : Input) : Receipt × Inbox :=
  if !b.isOpen then (.refused, b)
  else if b.queue.length < b.capacity then (.queued, { b with queue := b.queue ++ [i] })
  else (.mustWait, b)

/-- Queues a message from a peer, as the overflow policy says. -/
def post (b : Inbox) (i : Input) : Receipt × Inbox :=
  match b.deliver i, b.overflow with
  | (.mustWait, b), .dropIncoming => (.refused, b)
  | r, _ => r

def take (b : Inbox) : Option Input × Inbox := (b.queue.head?, { b with queue := b.queue.tail })

def close (b : Inbox) : Inbox := { b with queue := [], isOpen := false }

end Inbox

end BlockAgreement
