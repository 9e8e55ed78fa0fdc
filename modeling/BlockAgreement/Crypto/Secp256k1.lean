import BlockAgreement.Crypto.Field

/-!
# The curve secp256k1

The points of `y² = x³ + 7` in Jacobian coordinates, and scalar multiplication with windows of four
bits. Multiples of the generator come from a table.
-/

set_option autoImplicit false

namespace BlockAgreement.Secp256k1

def n : Nat := 0xfffffffffffffffffffffffffffffffebaaedce6af48a03bbfd25e8cd0364141

structure Affine where
  x : Nat
  y : Nat
  deriving DecidableEq, Repr

structure Point where
  x : Element
  y : Element
  z : Element

def generator : Affine where
  x := 0x79be667ef9dcbbac55a06295ce870b07029bfcdb2dce28d959f2815b16f81798
  y := 0x483ada7726a3c4655da4fbfc0e1108a8fd17b448a68554199c47d08ffb10d4b8

namespace Point

open Element

def infinity : Point := ⟨.one, .one, .zero⟩

def ofAffine (a : Affine) : Point := ⟨.ofNat a.x, .ofNat a.y, .one⟩

def isInfinity (q : Point) : Bool := q.z.isZero

def scaled (q : Point) : Point :=
  let i := inverse q.z
  let i2 := square i
  ⟨mul q.x i2, mul q.y (mul i2 i), .one⟩

def toAffine? (q : Point) : Option Affine :=
  if q.isInfinity then none
  else
    let q := q.scaled
    some ⟨q.x.toNat, q.y.toNat⟩

def double (q : Point) : Point :=
  let a := square q.x
  let b := square q.y
  let c := square b
  let d := sub (sub (square (add q.x b)) a) c
  let d := add d d
  let e := add (add a a) a
  let x := sub (sub (square e) d) d
  let c2 := add c c
  let c4 := add c2 c2
  let z := mul q.y q.z
  ⟨x, sub (mul e (sub d x)) (add c4 c4), add z z⟩

/-- The sum of two points with ordinates and abscissas brought to the common denominator `z`:
`(u, s)` is the first point, and `h` and `r` are the differences of the second from it. -/
def chord (q : Point) (u s h r z : Element) : Point :=
  if h.isZero then (if r.isZero then double q else infinity)
  else
    let hh := square h
    let hhh := mul hh h
    let v := mul u hh
    let x := sub (sub (sub (square r) hhh) v) v
    ⟨x, sub (mul r (sub v x)) (mul s hhh), mul z h⟩

def addScaled (q t : Point) : Point :=
  if q.isInfinity then t
  else
    let zz := square q.z
    chord q q.x q.y (sub (mul t.x zz) q.x) (sub (mul t.y (mul zz q.z)) q.y) q.z

def add (q t : Point) : Point :=
  if q.isInfinity then t
  else if t.isInfinity then q
  else
    let qq := square q.z
    let tt := square t.z
    let u := mul q.x tt
    let s := mul q.y (mul tt t.z)
    chord q u s (sub (mul t.x qq) u) (sub (mul t.y (mul qq q.z)) s) (mul q.z t.z)

def multiples (q : Point) : Array Point :=
  (List.range 15).foldl (fun ms _ => ms.push ((ms.back?.getD infinity).add q)) #[infinity]

def scale (k : Nat) (q : Point) : Point :=
  let table := multiples q
  (List.range 64).foldl
    (fun acc i =>
      let acc := acc.double.double.double.double
      let w := k >>> (4 * (63 - i)) % 16
      if w = 0 then acc else acc.add (table.getD w infinity))
    infinity

def generatorTable : Array (Array Point) :=
  ((List.range 64).foldl
    (fun (rows, base) _ =>
      let row := multiples base
      (rows.push (row.map scaled), (row.getD 15 infinity).add base))
    (#[], ofAffine generator)).1

def scaleGenerator (k : Nat) : Point :=
  (List.range 64).foldl
    (fun acc i =>
      let w := k >>> (4 * i) % 16
      if w = 0 then acc else acc.addScaled ((generatorTable.getD i #[]).getD w infinity))
    infinity

end Point

def decompress (x : Nat) (odd : Bool) : Option Affine :=
  if x < p then
    let e := Element.ofNat x
    let yy := (e.square.mul e).add (.ofNat 7)
    let y := yy.pow ((p + 1) / 4)
    if (y.square.sub yy).isZero then
      let y := y.toNat
      some ⟨x, if (y % 2 == 1) == odd then y else (p - y) % p⟩
    else none
  else none

/-- The coefficient of `b` in the greatest common divisor of `a` and `b`, by Euclid's algorithm:
`s` and `t` are the coefficients of `a` and `b`. -/
def cofactor (a b : Nat) (s t : Int) : Int :=
  if b = 0 then s else cofactor b (a % b) t (s - (a / b : Nat) * t)
termination_by b
decreasing_by exact Nat.mod_lt _ (Nat.pos_of_ne_zero ‹_›)

def inverseScalar (a : Nat) : Nat := (cofactor n a 0 1 % n).toNat

end BlockAgreement.Secp256k1
