/-!
# Least-recently-used caches

A map of bounded size that forgets the key it has not been asked about for the longest time. The
entries are a list, most recently used first. With capacity zero nothing is ever stored.
-/

set_option autoImplicit false

namespace BlockAgreement

structure Lru (κ α : Type) where
  capacity : Nat
  entries : List (κ × α)

namespace Lru

variable {κ α : Type} [DecidableEq κ]

def empty (capacity : Nat) : Lru κ α := ⟨capacity, []⟩

omit [DecidableEq κ] in
def size (c : Lru κ α) : Nat := c.entries.length

omit [DecidableEq κ] in
def isEmpty (c : Lru κ α) : Bool := c.entries.isEmpty

def peek? (c : Lru κ α) (k : κ) : Option α := (c.entries.find? (·.1 = k)).map (·.2)

def contains (c : Lru κ α) (k : κ) : Bool := (c.peek? k).isSome

def put (c : Lru κ α) (k : κ) (a : α) : Lru κ α :=
  { c with entries := ((k, a) :: c.entries.filter (·.1 ≠ k)).take c.capacity }

def get? (c : Lru κ α) (k : κ) : Option α × Lru κ α :=
  match c.peek? k with
  | none => (none, c)
  | some a => (some a, c.put k a)

def getOrInsert (c : Lru κ α) (k : κ) (default : α) : α × Lru κ α :=
  let a := (c.peek? k).getD default
  (a, c.put k a)

def mark (c : Lru κ Unit) (k : κ) : Bool × Lru κ Unit := (c.contains k, c.put k ())

end Lru

end BlockAgreement
