import BlockAgreement.Bytes

/-!
# Codecs

A codec writes values of a type as bytes and reads them back from the front of a byte string. The
format is canonical: integers are little endian, a list is its length in four bytes followed by its
elements, an optional value and an enumeration start with one tag byte, and a structure is its fields
in order. `Codec.Canonical` has the laws that every combinator keeps.
-/

set_option autoImplicit false

namespace BlockAgreement

/-- Why a byte string is not the encoding of a value. -/
inductive DecodeError where
  | truncated
  | unknownTag (tag : UInt8)
  | badBool (byte : UInt8)
  | badOption (byte : UInt8)
  | trailing
  deriving DecidableEq, Repr

instance : ToString DecodeError :=
  ⟨fun
    | .truncated => "Unexpected length of input"
    | .unknownTag t => s!"Unexpected variant index: {t}"
    | .badBool b => s!"Invalid bool representation: {b}"
    | .badOption b => s!"Invalid Option representation: {b}. The first byte must be 0 or 1"
    | .trailing => "Not all bytes read"⟩

structure Codec (α : Type) where
  encode : α → Bytes
  /-- Reads one value from the front and returns the bytes after it. -/
  decode : Bytes → Except DecodeError (α × Bytes)

namespace Codec

variable {α β : Type}

def fixed (n : Nat) (toBytes : α → Bytes) (ofBytes : Bytes → α) : Codec α where
  encode := toBytes
  decode bs :=
    let front := bs.take n
    if front.length = n then .ok (ofBytes front, bs.drop n) else .error .truncated

def tagged (tag : α → UInt8) (ofTag : UInt8 → Except DecodeError α) : Codec α where
  encode a := [tag a]
  decode
    | [] => .error .truncated
    | b :: bs => (ofTag b).map fun a => (a, bs)

def word64 : Codec UInt64 :=
  fixed 8 (fun n => Digits.little 8 n.toNat) (fun bs => UInt64.ofNat (Digits.value bs))

def littleEndian (n : Nat) : Codec (BitVec (8 * n)) :=
  fixed n (fun v => Digits.little n v.toNat) (fun bs => BitVec.ofNat _ (Digits.value bs))

def bigEndian (n : Nat) : Codec (BitVec (8 * n)) :=
  fixed n (fun v => (Digits.little n v.toNat).reverse)
    (fun bs => BitVec.ofNat _ (Digits.value bs.reverse))

def byte : Codec UInt8 := tagged id .ok

def bool : Codec Bool :=
  tagged (fun b => if b then 1 else 0)
    (fun t => if t = 0 then .ok false else if t = 1 then .ok true else .error (.badBool t))

def count : Codec Nat := fixed 4 (Digits.little 4) Digits.value

def both (c : Codec α) (d : Codec β) : Codec (α × β) where
  encode p := c.encode p.1 ++ d.encode p.2
  decode bs := do
    let (a, bs) ← c.decode bs
    let (b, bs) ← d.decode bs
    return ((a, b), bs)

def map (c : Codec α) (f : α → β) (g : β → α) : Codec β where
  encode b := c.encode (g b)
  decode bs := (c.decode bs).map fun p => (f p.1, p.2)

def option (c : Codec α) : Codec (Option α) where
  encode
    | none => [0]
    | some a => 1 :: c.encode a
  decode
    | [] => .error .truncated
    | t :: bs =>
      if t = 0 then .ok (none, bs)
      else if t = 1 then (c.decode bs).map fun p => (some p.1, p.2)
      else .error (.badOption t)

def decodeMany (c : Codec α) : Nat → Bytes → Except DecodeError (List α × Bytes)
  | 0, bs => .ok ([], bs)
  | n + 1, bs => do
    let (a, bs) ← c.decode bs
    let (as, bs) ← decodeMany c n bs
    return (a :: as, bs)

def list (c : Codec α) : Codec (List α) where
  encode as := count.encode as.length ++ as.flatMap c.encode
  decode bs := do
    let (n, bs) ← count.decode bs
    decodeMany c n bs

def bytes : Codec Bytes where
  encode data := count.encode data.length ++ data
  decode bs := do
    let (n, bs) ← count.decode bs
    (fixed n id id).decode bs

def decodeAll (c : Codec α) (bs : Bytes) : Except DecodeError α :=
  match c.decode bs with
  | .ok (a, []) => .ok a
  | .ok _ => .error .trailing
  | .error e => .error e

def decodeFront (c : Codec α) (bs : Bytes) : Except DecodeError α :=
  (c.decode bs).map Prod.fst

end Codec

/-- The types that travel in messages or are hashed. -/
class Wire (α : Type) where
  codec : Codec α

namespace Wire

variable {α β : Type}

def encode [Wire α] (a : α) : Bytes := codec.encode a

def decode [Wire α] (bs : Bytes) : Except DecodeError α := codec.decodeAll bs

def decodeFront [Wire α] (bs : Bytes) : Except DecodeError α := codec.decodeFront bs

instance : Wire UInt64 := ⟨Codec.word64⟩
instance : Wire UInt8 := ⟨Codec.byte⟩
instance : Wire Bool := ⟨Codec.bool⟩
instance [Wire α] [Wire β] : Wire (α × β) := ⟨Codec.both codec codec⟩
instance [Wire α] : Wire (Option α) := ⟨Codec.option codec⟩
instance [Wire α] : Wire (List α) := ⟨Codec.list codec⟩
instance : Wire Bytes := ⟨Codec.bytes⟩

end Wire

end BlockAgreement
