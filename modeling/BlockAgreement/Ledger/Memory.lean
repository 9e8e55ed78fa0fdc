import BlockAgreement.Ledger.Basic

/-!
# A ledger in memory

A list of blocks. Appending checks that the block extends the head, unless every block is being
rejected; putting a block there from outside checks nothing.
-/

set_option autoImplicit false

namespace BlockAgreement

structure MemoryLedger where
  /-- Newest first. -/
  blocks : List Block
  /-- Why every block is rejected at present, if it is. -/
  rejecting : Option String
  deriving DecidableEq, Repr

namespace MemoryLedger

def ofHeaders (headers : List Header) : MemoryLedger :=
  ⟨(headers.map fun h => ⟨h, []⟩).reverse, none⟩

def size (l : MemoryLedger) : Nat := l.blocks.length

def push (l : MemoryLedger) (b : Block) : MemoryLedger := { l with blocks := b :: l.blocks }

def truncate (l : MemoryLedger) (n : Nat) : MemoryLedger :=
  { l with blocks := l.blocks.drop (l.blocks.length - n) }

def blocksFrom (l : MemoryLedger) (n : Nat) : List Block := l.blocks.reverse.drop n

def headerAt? (l : MemoryLedger) (number : Height) : Option Header :=
  if number.toNat < l.blocks.length then
    l.blocks[l.blocks.length - 1 - number.toNat]?.map (·.header)
  else none

variable [Scheme]

def head (l : MemoryLedger) : Header :=
  match l.blocks with
  | [] => { Header.genesis [] 0 with marker := 0 }
  | b :: _ => b.header

def headerOf? (l : MemoryLedger) (hash : Digest) : Option Header :=
  (l.blocks.find? (·.hash = hash)).map (·.header)

def append (l : MemoryLedger) (b : Block) : Except LedgerFault MemoryLedger :=
  match l.rejecting with
  | some reason => .error (.rejected reason)
  | none =>
    if b.header.parentHash = l.head.hash ∧ next? l.head.number = some b.number then .ok (l.push b)
    else .error .notExtendingHead

instance : Ledger MemoryLedger where
  head := head
  headerAt? := headerAt?
  headerOf? := headerOf?
  append := append

end MemoryLedger

end BlockAgreement
