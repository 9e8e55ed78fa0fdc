import BlockAgreement.Bytes

/-!
# Keccak-256

The sponge with rate 1088 bits over Keccak-f[1600]. The padding has no domain bits: the message is closed
by the byte `0x01`, and the last byte of the last block carries `0x80`.
-/

set_option autoImplicit false

namespace BlockAgreement.Keccak

structure Plane where
  a : UInt64
  b : UInt64
  c : UInt64
  d : UInt64
  e : UInt64

namespace Plane

def zero : Plane := ⟨0, 0, 0, 0, 0⟩

def xor (p q : Plane) : Plane := ⟨p.a ^^^ q.a, p.b ^^^ q.b, p.c ^^^ q.c, p.d ^^^ q.d, p.e ^^^ q.e⟩

end Plane

structure State where
  p0 : Plane
  p1 : Plane
  p2 : Plane
  p3 : Plane
  p4 : Plane

def State.zero : State := ⟨.zero, .zero, .zero, .zero, .zero⟩

@[inline] def rotl (x k : UInt64) : UInt64 := (x <<< k) ||| (x >>> (64 - k))

def theta (s : State) : State :=
  let c := s.p0.xor (s.p1.xor (s.p2.xor (s.p3.xor s.p4)))
  let d : Plane := ⟨c.e ^^^ rotl c.b 1, c.a ^^^ rotl c.c 1, c.b ^^^ rotl c.d 1, c.c ^^^ rotl c.e 1,
    c.d ^^^ rotl c.a 1⟩
  ⟨s.p0.xor d, s.p1.xor d, s.p2.xor d, s.p3.xor d, s.p4.xor d⟩

def rhoPi (s : State) : State :=
  ⟨⟨s.p0.a, rotl s.p1.b 44, rotl s.p2.c 43, rotl s.p3.d 21, rotl s.p4.e 14⟩,
   ⟨rotl s.p0.d 28, rotl s.p1.e 20, rotl s.p2.a 3, rotl s.p3.b 45, rotl s.p4.c 61⟩,
   ⟨rotl s.p0.b 1, rotl s.p1.c 6, rotl s.p2.d 25, rotl s.p3.e 8, rotl s.p4.a 18⟩,
   ⟨rotl s.p0.e 27, rotl s.p1.a 36, rotl s.p2.b 10, rotl s.p3.c 15, rotl s.p4.d 56⟩,
   ⟨rotl s.p0.c 62, rotl s.p1.d 55, rotl s.p2.e 39, rotl s.p3.a 41, rotl s.p4.b 2⟩⟩

def chi (p : Plane) : Plane :=
  ⟨p.a ^^^ (~~~p.b &&& p.c), p.b ^^^ (~~~p.c &&& p.d), p.c ^^^ (~~~p.d &&& p.e),
   p.d ^^^ (~~~p.e &&& p.a), p.e ^^^ (~~~p.a &&& p.b)⟩

def round (s : State) (constant : UInt64) : State :=
  let s := rhoPi (theta s)
  let p0 := chi s.p0
  ⟨{ p0 with a := p0.a ^^^ constant }, chi s.p1, chi s.p2, chi s.p3, chi s.p4⟩

def roundConstants : List UInt64 :=
  [0x0000000000000001, 0x0000000000008082, 0x800000000000808a, 0x8000000080008000,
   0x000000000000808b, 0x0000000080000001, 0x8000000080008081, 0x8000000000008009,
   0x000000000000008a, 0x0000000000000088, 0x0000000080008009, 0x000000008000000a,
   0x000000008000808b, 0x800000000000008b, 0x8000000000008089, 0x8000000000008003,
   0x8000000000008002, 0x8000000000000080, 0x000000000000800a, 0x800000008000000a,
   0x8000000080008081, 0x8000000000008080, 0x0000000080000001, 0x8000000080008008]

def permute (s : State) : State := roundConstants.foldl round s

def rate : Nat := 136

def pad (message : Bytes) : Bytes :=
  match rate - message.length % rate with
  | 0 | 1 => message ++ [0x81]
  | gap + 2 => message ++ (0x01 :: List.replicate gap 0x00 ++ [0x80])

def takeLane : Bytes → UInt64 × Bytes
  | b0 :: b1 :: b2 :: b3 :: b4 :: b5 :: b6 :: b7 :: rest =>
    (b0.toUInt64 ||| b1.toUInt64 <<< 8 ||| b2.toUInt64 <<< 16 ||| b3.toUInt64 <<< 24 |||
      b4.toUInt64 <<< 32 ||| b5.toUInt64 <<< 40 ||| b6.toUInt64 <<< 48 ||| b7.toUInt64 <<< 56, rest)
  | _ => (0, [])

def takePlane (bs : Bytes) : Plane × Bytes :=
  let (a, bs) := takeLane bs
  let (b, bs) := takeLane bs
  let (c, bs) := takeLane bs
  let (d, bs) := takeLane bs
  let (e, bs) := takeLane bs
  (⟨a, b, c, d, e⟩, bs)

def absorbBlock (s : State) (bs : Bytes) : State × Bytes :=
  let (q0, bs) := takePlane bs
  let (q1, bs) := takePlane bs
  let (q2, bs) := takePlane bs
  let (a, bs) := takeLane bs
  let (b, bs) := takeLane bs
  let p3 := { s.p3 with a := s.p3.a ^^^ a, b := s.p3.b ^^^ b }
  (permute ⟨s.p0.xor q0, s.p1.xor q1, s.p2.xor q2, p3, s.p4⟩, bs)

def absorb : Nat → State → Bytes → State
  | 0, s, _ => s
  | blocks + 1, s, bs =>
    let (s, bs) := absorbBlock s bs
    absorb blocks s bs

def hash256 (message : Bytes) : BitVec 256 :=
  let padded := pad message
  let s := absorb (padded.length / rate) .zero padded
  let lanes := [s.p0.a, s.p0.b, s.p0.c, s.p0.d]
  BitVec.ofNat 256 (Digits.value (lanes.flatMap fun x => Digits.little 8 x.toNat).reverse)

end BlockAgreement.Keccak
