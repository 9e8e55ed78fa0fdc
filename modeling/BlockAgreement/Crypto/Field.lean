/-!
# The field of secp256k1

Arithmetic modulo `p = 2 ^ 256 - 2 ^ 32 - 977` on ten limbs of 26 bits. The limbs of a sum may run
over a little; `carry` brings them back, and the excess over `2 ^ 256` is folded in again through
`2 ^ 256 ≡ 2 ^ 32 + 977`.
-/

set_option autoImplicit false

namespace BlockAgreement.Secp256k1

def p : Nat := 0xfffffffffffffffffffffffffffffffffffffffffffffffffffffffefffffc2f

structure Element where
  l0 : UInt64
  l1 : UInt64
  l2 : UInt64
  l3 : UInt64
  l4 : UInt64
  l5 : UInt64
  l6 : UInt64
  l7 : UInt64
  l8 : UInt64
  l9 : UInt64
  deriving DecidableEq

namespace Element

@[inline] def mask : UInt64 := 0x3ffffff

@[inline] def topMask : UInt64 := 0x3fffff

@[inline] def foldLow : UInt64 := 0x3d10

@[inline] def foldHigh : UInt64 := 0x400

def zero : Element := ⟨0, 0, 0, 0, 0, 0, 0, 0, 0, 0⟩

def one : Element := ⟨1, 0, 0, 0, 0, 0, 0, 0, 0, 0⟩

def modulus : Element :=
  ⟨0x3fffc2f, 0x3ffffbf, 0x3ffffff, 0x3ffffff, 0x3ffffff,
   0x3ffffff, 0x3ffffff, 0x3ffffff, 0x3ffffff, 0x3fffff⟩

def ofNat (v : Nat) : Element :=
  let limb (i : Nat) : UInt64 := (v >>> (26 * i)).toUInt64 &&& mask
  ⟨limb 0, limb 1, limb 2, limb 3, limb 4, limb 5, limb 6, limb 7, limb 8, limb 9⟩

def toNat (x : Element) : Nat :=
  [x.l0, x.l1, x.l2, x.l3, x.l4, x.l5, x.l6, x.l7, x.l8, x.l9].foldr
    (fun l v => l.toNat + v <<< 26) 0 % p

@[inline] def carry (x : Element) : Element :=
  let excess := x.l9 >>> 22
  let l0 := x.l0 + excess * (foldLow >>> 4)
  let l1 := x.l1 + excess * (foldHigh >>> 4) + (l0 >>> 26)
  let l2 := x.l2 + (l1 >>> 26)
  let l3 := x.l3 + (l2 >>> 26)
  let l4 := x.l4 + (l3 >>> 26)
  let l5 := x.l5 + (l4 >>> 26)
  let l6 := x.l6 + (l5 >>> 26)
  let l7 := x.l7 + (l6 >>> 26)
  let l8 := x.l8 + (l7 >>> 26)
  let l9 := (x.l9 &&& topMask) + (l8 >>> 26)
  ⟨l0 &&& mask, l1 &&& mask, l2 &&& mask, l3 &&& mask, l4 &&& mask, l5 &&& mask, l6 &&& mask,
   l7 &&& mask, l8 &&& mask, l9⟩

def add (x y : Element) : Element :=
  carry ⟨x.l0 + y.l0, x.l1 + y.l1, x.l2 + y.l2, x.l3 + y.l3, x.l4 + y.l4, x.l5 + y.l5, x.l6 + y.l6,
    x.l7 + y.l7, x.l8 + y.l8, x.l9 + y.l9⟩

def sub (x y : Element) : Element :=
  carry
    ⟨x.l0 + 0xffff0bc - y.l0, x.l1 + 0xffffefc - y.l1, x.l2 + 0xffffffc - y.l2,
     x.l3 + 0xffffffc - y.l3, x.l4 + 0xffffffc - y.l4, x.l5 + 0xffffffc - y.l5,
     x.l6 + 0xffffffc - y.l6, x.l7 + 0xffffffc - y.l7, x.l8 + 0xffffffc - y.l8,
     x.l9 + 0xfffffc - y.l9⟩

/-- Collects the products by the weight of their limbs, lowest and highest half side by side, and
folds the upper half in as it appears. -/
def mul (x y : Element) : Element :=
  let d := x.l0 * y.l9 + x.l1 * y.l8 + x.l2 * y.l7 + x.l3 * y.l6 + x.l4 * y.l5 + x.l5 * y.l4 +
    x.l6 * y.l3 + x.l7 * y.l2 + x.l8 * y.l1 + x.l9 * y.l0
  let t9 := d &&& mask
  let d := d >>> 26
  let c := x.l0 * y.l0
  let d := d + x.l1 * y.l9 + x.l2 * y.l8 + x.l3 * y.l7 + x.l4 * y.l6 + x.l5 * y.l5 + x.l6 * y.l4 +
    x.l7 * y.l3 + x.l8 * y.l2 + x.l9 * y.l1
  let u := d &&& mask
  let d := d >>> 26
  let c := c + u * foldLow
  let t0 := c &&& mask
  let c := (c >>> 26) + u * foldHigh
  let c := c + x.l0 * y.l1 + x.l1 * y.l0
  let d := d + x.l2 * y.l9 + x.l3 * y.l8 + x.l4 * y.l7 + x.l5 * y.l6 + x.l6 * y.l5 + x.l7 * y.l4 +
    x.l8 * y.l3 + x.l9 * y.l2
  let u := d &&& mask
  let d := d >>> 26
  let c := c + u * foldLow
  let t1 := c &&& mask
  let c := (c >>> 26) + u * foldHigh
  let c := c + x.l0 * y.l2 + x.l1 * y.l1 + x.l2 * y.l0
  let d := d + x.l3 * y.l9 + x.l4 * y.l8 + x.l5 * y.l7 + x.l6 * y.l6 + x.l7 * y.l5 + x.l8 * y.l4 +
    x.l9 * y.l3
  let u := d &&& mask
  let d := d >>> 26
  let c := c + u * foldLow
  let t2 := c &&& mask
  let c := (c >>> 26) + u * foldHigh
  let c := c + x.l0 * y.l3 + x.l1 * y.l2 + x.l2 * y.l1 + x.l3 * y.l0
  let d := d + x.l4 * y.l9 + x.l5 * y.l8 + x.l6 * y.l7 + x.l7 * y.l6 + x.l8 * y.l5 + x.l9 * y.l4
  let u := d &&& mask
  let d := d >>> 26
  let c := c + u * foldLow
  let t3 := c &&& mask
  let c := (c >>> 26) + u * foldHigh
  let c := c + x.l0 * y.l4 + x.l1 * y.l3 + x.l2 * y.l2 + x.l3 * y.l1 + x.l4 * y.l0
  let d := d + x.l5 * y.l9 + x.l6 * y.l8 + x.l7 * y.l7 + x.l8 * y.l6 + x.l9 * y.l5
  let u := d &&& mask
  let d := d >>> 26
  let c := c + u * foldLow
  let t4 := c &&& mask
  let c := (c >>> 26) + u * foldHigh
  let c := c + x.l0 * y.l5 + x.l1 * y.l4 + x.l2 * y.l3 + x.l3 * y.l2 + x.l4 * y.l1 + x.l5 * y.l0
  let d := d + x.l6 * y.l9 + x.l7 * y.l8 + x.l8 * y.l7 + x.l9 * y.l6
  let u := d &&& mask
  let d := d >>> 26
  let c := c + u * foldLow
  let t5 := c &&& mask
  let c := (c >>> 26) + u * foldHigh
  let c := c + x.l0 * y.l6 + x.l1 * y.l5 + x.l2 * y.l4 + x.l3 * y.l3 + x.l4 * y.l2 + x.l5 * y.l1 +
    x.l6 * y.l0
  let d := d + x.l7 * y.l9 + x.l8 * y.l8 + x.l9 * y.l7
  let u := d &&& mask
  let d := d >>> 26
  let c := c + u * foldLow
  let t6 := c &&& mask
  let c := (c >>> 26) + u * foldHigh
  let c := c + x.l0 * y.l7 + x.l1 * y.l6 + x.l2 * y.l5 + x.l3 * y.l4 + x.l4 * y.l3 + x.l5 * y.l2 +
    x.l6 * y.l1 + x.l7 * y.l0
  let d := d + x.l8 * y.l9 + x.l9 * y.l8
  let u := d &&& mask
  let d := d >>> 26
  let c := c + u * foldLow
  let t7 := c &&& mask
  let c := (c >>> 26) + u * foldHigh
  let c := c + x.l0 * y.l8 + x.l1 * y.l7 + x.l2 * y.l6 + x.l3 * y.l5 + x.l4 * y.l4 + x.l5 * y.l3 +
    x.l6 * y.l2 + x.l7 * y.l1 + x.l8 * y.l0
  let d := d + x.l9 * y.l9
  let u := d &&& mask
  let d := d >>> 26
  let c := c + u * foldLow
  let t8 := c &&& mask
  let c := (c >>> 26) + u * foldHigh
  let c := c + d * foldLow + t9
  let t9 := c &&& topMask
  let c := (c >>> 22) + d * (foldHigh <<< 4)
  let d := c * (foldLow >>> 4) + t0
  let t0 := d &&& mask
  let d := (d >>> 26) + c * (foldHigh >>> 4) + t1
  let t1 := d &&& mask
  ⟨t0, t1, t2 + (d >>> 26), t3, t4, t5, t6, t7, t8, t9⟩

def square (x : Element) : Element := mul x x

def isZero (x : Element) : Bool :=
  let x := carry (carry x)
  x = zero || x = modulus

def pow (x : Element) (e : Nat) : Element :=
  let table := (List.range 15).foldl (fun t _ => t.push (mul x (t.back?.getD one))) #[one]
  (List.range 64).foldl
    (fun acc i =>
      let acc := acc.square.square.square.square
      mul acc (table.getD (e >>> (4 * (63 - i)) % 16) one))
    one

def inverse (x : Element) : Element := pow x (p - 2)

end Element

end BlockAgreement.Secp256k1
