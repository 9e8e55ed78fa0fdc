import BlockAgreement.Message
import BlockAgreement.SortedMap

/-!
# The backlog

A bounded buffer for messages that came too early. They wait in queues, ordered by view and then by
the order of replay within a view: Preprepare, Commit, Prepare, RoundChange. When the buffer is full,
a message makes room by evicting the last one, unless it belongs at or behind that one's queue itself.
-/

set_option autoImplicit false

namespace BlockAgreement

/-- A message with the payload that it came as. -/
structure Delivery where
  message : Message
  payload : Bytes
  deriving DecidableEq, Repr

/-- What becomes of a waiting message when the backlog is replayed. -/
inductive Disposition where
  | keep
  | discard
  | process
  deriving DecidableEq, Repr

def MessageKind.rank : MessageKind → Nat
  | preprepare => 0
  | commit => 1
  | prepare => 2
  | roundChange => 3

structure Slot where
  view : View
  rank : Nat
  deriving DecidableEq, Repr

namespace Slot

instance : LT Slot := ⟨fun a b => a.view < b.view ∨ a.view = b.view ∧ a.rank < b.rank⟩

instance (a b : Slot) : Decidable (a < b) :=
  inferInstanceAs (Decidable (a.view < b.view ∨ a.view = b.view ∧ a.rank < b.rank))

def of (view : View) (kind : MessageKind) : Slot := ⟨view, kind.rank⟩

end Slot

structure Backlog where
  capacity : Nat
  queues : SortedMap Slot (List Delivery)
  size : Nat

namespace Backlog

def empty (capacity : Nat) : Backlog := ⟨capacity, [], 0⟩

def toList (b : Backlog) : List (View × Delivery) :=
  b.queues.flatMap fun (slot, ds) => ds.map fun d => (slot.view, d)

def push (b : Backlog) (slot : Slot) (d : Delivery) : Backlog :=
  { b with
    queues := b.queues.insert slot ((b.queues.find? slot).getD [] ++ [d])
    size := b.size + 1 }

def evict (b : Backlog) : Backlog :=
  match b.queues.getLast? with
  | none => b
  | some (slot, ds) =>
    { b with
      queues := b.queues.dropLast ++ (if ds.length ≤ 1 then [] else [(slot, ds.dropLast)])
      size := b.size - 1 }

def insert (b : Backlog) (view : View) (d : Delivery) : Bool × Backlog :=
  let slot := Slot.of view d.message.kind
  if b.size < b.capacity then (true, b.push slot d)
  else
    match b.queues.getLast? with
    | none => (false, b)
    | some (highest, _) => if slot < highest then (true, b.evict.push slot d) else (false, b)

def drain (b : Backlog) (classify : View → MessageKind → Disposition) : List Delivery × Backlog :=
  let ready := b.toList.filter fun (view, d) => classify view d.message.kind = .process
  let queues := b.queues.map fun (slot, ds) =>
    (slot, ds.filter fun d => classify slot.view d.message.kind = .keep)
  let queues := queues.filter fun (_, ds) => !ds.isEmpty
  (ready.map (·.2), { b with queues, size := (queues.flatMap fun (_, ds) => ds).length })

end Backlog

end BlockAgreement
