import SignerHost.Bytes

/-!
# The curve of the keys

Arithmetic on the curve `y² = x³ + 7` over the prime field of order `fieldPrime`.  Points are
added in projective coordinates, so that one inversion at the end is enough.
-/

namespace SignerHost

namespace Curve

/-- The order of the field of coordinates. -/
def fieldPrime : Nat := 0xFFFFFFFFFFFFFFFFFFFFFFFFFFFFFFFFFFFFFFFFFFFFFFFFFFFFFFFEFFFFFC2F

/-- The order of the group of points. -/
def groupOrder : Nat := 0xFFFFFFFFFFFFFFFFFFFFFFFFFFFFFFFEBAAEDCE6AF48A03BBFD25E8CD0364141

/-- The low `fuel` bits of the exponent, applied to `base` on top of `acc`. -/
def powerFrom (modulus : Nat) : Nat → Nat → Nat → Nat → Nat
  | 0, _, _, acc => acc
  | fuel + 1, base, exponent, acc =>
      powerFrom modulus fuel (base * base % modulus) (exponent / 2)
        (if exponent % 2 = 1 then acc * base % modulus else acc)

/-- A power in the field, for exponents of 256 bits. -/
def power (base exponent : Nat) : Nat := powerFrom fieldPrime 256 base exponent 1

def inverse (x : Nat) : Nat := power x (fieldPrime - 2)

def sub (x y : Nat) : Nat := (x + (fieldPrime - y)) % fieldPrime

/-- The square root of a field element that has one.  The candidate is a power, and it is a root
if there is any. -/
def sqrt? (x : Nat) : Option Nat :=
  let root := power x ((fieldPrime + 1) / 4)
  if root * root % fieldPrime = x then some root else none

/-- A point other than the neutral one, by its coordinates.  Nothing in the type says that it is
on the curve; `isOnCurve` does. -/
structure Point where
  x : Nat
  y : Nat
  deriving DecidableEq

namespace Point

def generator : Point where
  x := 0x79be667ef9dcbbac55a06295ce870b07029bfcdb2dce28d959f2815b16f81798
  y := 0x483ada7726a3c4655da4fbfc0e1108a8fd17b448a68554199c47d08ffb10d4b8

/-- The right-hand side of the equation of the curve. -/
def cubic (x : Nat) : Nat := (x * x % fieldPrime * x + 7) % fieldPrime

def isOnCurve (p : Point) : Bool :=
  p.x < fieldPrime && p.y < fieldPrime && p.y * p.y % fieldPrime = cubic p.x

/-- The point with an abscissa and an even or odd ordinate.  There is none if the abscissa is no
field element or has no ordinate. -/
def lift? (x : Nat) (odd : Bool) : Option Point :=
  if x < fieldPrime then
    (sqrt? (cubic x)).map fun y => ⟨x, if (y % 2 = 1) = odd then y else fieldPrime - y⟩
  else none

end Point

/-- A point in projective coordinates: `x / z²` and `y / z³`.  The neutral point has `z = 0`. -/
structure Projective where
  x : Nat
  y : Nat
  z : Nat

namespace Projective

def neutral : Projective := ⟨1, 1, 0⟩

def ofPoint (p : Point) : Projective := ⟨p.x, p.y, 1⟩

def toPoint? (p : Projective) : Option Point :=
  if p.z = 0 then none
  else
    let w := inverse p.z
    let w2 := w * w % fieldPrime
    some ⟨p.x * w2 % fieldPrime, p.y * (w2 * w % fieldPrime) % fieldPrime⟩

def double (p : Projective) : Projective :=
  if p.z = 0 then neutral
  else
    let yy := p.y * p.y % fieldPrime
    let s := 4 * p.x * yy % fieldPrime
    let m := 3 * p.x * p.x % fieldPrime
    let x := sub (m * m % fieldPrime) (2 * s % fieldPrime)
    ⟨x, sub (m * sub s x % fieldPrime) (8 * yy * yy % fieldPrime), 2 * p.y * p.z % fieldPrime⟩

def add (p q : Projective) : Projective :=
  if p.z = 0 then q
  else if q.z = 0 then p
  else
    let pz := p.z * p.z % fieldPrime
    let qz := q.z * q.z % fieldPrime
    let u := p.x * qz % fieldPrime
    let v := q.x * pz % fieldPrime
    let s := p.y * (qz * q.z % fieldPrime) % fieldPrime
    let t := q.y * (pz * p.z % fieldPrime) % fieldPrime
    if u = v then if s = t then double p else neutral
    else
      let h := sub v u
      let r := sub t s
      let hh := h * h % fieldPrime
      let hhh := hh * h % fieldPrime
      let w := u * hh % fieldPrime
      let x := sub (sub (r * r % fieldPrime) hhh) (2 * w % fieldPrime)
      ⟨x, sub (r * sub w x % fieldPrime) (s * hhh % fieldPrime),
        p.z * q.z % fieldPrime * h % fieldPrime⟩

/-- The low `fuel` bits of the scalar, applied to `base` on top of `acc`. -/
def scaleFrom : Nat → Projective → Nat → Projective → Projective
  | 0, _, _, acc => acc
  | fuel + 1, base, k, acc =>
      scaleFrom fuel base.double (k / 2) (if k % 2 = 1 then acc.add base else acc)

end Projective

namespace Point

/-- The sum of a point and a multiple of the generator.  The neutral element is no point and
gives none. -/
def addMultiple? (p : Point) (k : Nat) : Option Point :=
  (Projective.scaleFrom 256 (.ofPoint generator) k (.ofPoint p)).toPoint?

/-- A multiple of the generator. -/
def multiple? (k : Nat) : Option Point :=
  (Projective.scaleFrom 256 (.ofPoint generator) k .neutral).toPoint?

end Point

end Curve

end SignerHost
