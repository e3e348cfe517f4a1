import JarSigners.Bytes
import JarSigners.PublicKey.Modular

/-!
# Elliptic curves over a prime field

The two curves in use are `y² = x³ + a·x + b`. Points are added in projective form, where
`(x, y, z)` stands for the point `(x / z², y / z³)` and `z = 0` for the neutral one; both field
primes are 3 modulo 4, so a square root is a power.
-/

set_option autoImplicit false

namespace JarSigners.PublicKey

/-- A curve with a point that generates a group of prime order. -/
structure Curve where
  octets : Nat
  prime : Nat
  a : Nat
  b : Nat
  order : Nat
  generator : Nat × Nat

def p256 : Curve where
  octets := 32
  prime := 0xffffffff00000001000000000000000000000000ffffffffffffffffffffffff
  a := 0xffffffff00000001000000000000000000000000fffffffffffffffffffffffc
  b := 0x5ac635d8aa3a93e7b3ebbd55769886bc651d06b0cc53b0f63bce3c3e27d2604b
  order := 0xffffffff00000000ffffffffffffffffbce6faada7179e84f3b9cac2fc632551
  generator :=
    (0x6b17d1f2e12c4247f8bce6e563a440f277037d812deb33a0f4a13945d898c296,
     0x4fe342e2fe1a7f9b8ee7eb4a7c0f9e162bce33576b315ececbb6406837bf51f5)

def p384 : Curve where
  octets := 48
  prime := 0xfffffffffffffffffffffffffffffffffffffffffffffffffffffffffffffffeffffffff0000000000000000ffffffff
  a := 0xfffffffffffffffffffffffffffffffffffffffffffffffffffffffffffffffeffffffff0000000000000000fffffffc
  b := 0xb3312fa7e23ee7e4988e056be3f82d19181d9c6efe8141120314088f5013875ac656398d8a2ed19d2a85c8edd3ec2aef
  order := 0xffffffffffffffffffffffffffffffffffffffffffffffffc7634d81f4372ddf581a0db248b0a77aecec196accc52973
  generator :=
    (0xaa87ca22be8b05378eb1c71ef320ad746e1d3b628ba79b9859f741e082542a385502f25dbf55296c3a545e3872760ab7,
     0x3617de4a96262c6f5d9e98bf9292dc29f8f41dbd289a147ce9da3113b5f0b8c00a60b1ce1d7e819d7a431d7c90ea0e5f)

/-- A point in projective form. -/
structure CurvePoint where
  x : Nat
  y : Nat
  z : Nat

namespace Curve

def neutral : CurvePoint := ⟨1, 1, 0⟩

def ofAffine (point : Nat × Nat) : CurvePoint := ⟨point.1, point.2, 1⟩

/-- A point added to itself. -/
def double (c : Curve) (q : CurvePoint) : CurvePoint :=
  let p := c.prime
  let yy := q.y * q.y % p
  let s := 4 * q.x * yy % p
  let zz := q.z * q.z % p
  let m := (3 * q.x * q.x + c.a * (zz * zz % p)) % p
  let x := subMod p (m * m % p) (2 * s % p)
  let y := subMod p (m * subMod p s x % p) (8 * (yy * yy % p) % p)
  ⟨x, y, 2 * q.y * q.z % p⟩

/-- The sum of two points. -/
def add (c : Curve) (q r : CurvePoint) : CurvePoint :=
  if q.z = 0 then r
  else if r.z = 0 then q
  else
    let p := c.prime
    let qzz := q.z * q.z % p
    let rzz := r.z * r.z % p
    let u := q.x * rzz % p
    let s := q.y * (rzz * r.z % p) % p
    let h := subMod p (r.x * qzz % p) u
    let t := subMod p (r.y * (qzz * q.z % p) % p) s
    if h = 0 then if t = 0 then double c q else neutral
    else
      let hh := h * h % p
      let hhh := hh * h % p
      let v := u * hh % p
      let x := subMod p (subMod p (t * t % p) hhh) (2 * v % p)
      let y := subMod p (t * subMod p v x % p) (s * hhh % p)
      ⟨x, y, q.z * r.z % p * h % p⟩

/-- The sum of `n` copies of a point. -/
def times (c : Curve) (n : Nat) (q : CurvePoint) : CurvePoint :=
  if n = 0 then neutral
  else
    let half := double c (times c (n / 2) q)
    if n % 2 = 1 then add c half q else half
termination_by n
decreasing_by omega

/-- The coordinates of a point other than the neutral one. -/
def affine? (c : Curve) (q : CurvePoint) : Option (Nat × Nat) :=
  if q.z = 0 then none
  else
    let inverse := invMod c.prime q.z
    let square := inverse * inverse % c.prime
    some (q.x * square % c.prime, q.y * (square * inverse % c.prime) % c.prime)

/-- The right-hand side of the curve's equation. -/
def rightSide (c : Curve) (x : Nat) : Nat :=
  (x * x * x + c.a * x + c.b) % c.prime

def isOnCurve (c : Curve) (x y : Nat) : Bool :=
  y * y % c.prime = c.rightSide x

/-- The two points with this coordinate, even `y` first. -/
def lift? (c : Curve) (x : Nat) : Option ((Nat × Nat) × (Nat × Nat)) :=
  let y := powMod c.prime (c.rightSide x) ((c.prime + 1) / 4)
  if c.isOnCurve x y then
    let other := subMod c.prime 0 y
    if y % 2 = 0 then some ((x, y), (x, other)) else some ((x, other), (x, y))
  else none

/-- A point other than the neutral one: both coordinates behind `04`; one coordinate behind `02`
or `03`, which give the parity of the other; or one coordinate behind `05`, where the other is
the smaller of the two. -/
def point? (c : Curve) : Bytes → Option (Nat × Nat)
  | [] => none
  | form :: rest =>
    let x := Bytes.toNatBE (rest.take c.octets)
    if c.prime ≤ x then none
    else if form = 4 then
      let y := Bytes.toNatBE (rest.drop c.octets)
      if rest.length = 2 * c.octets && y < c.prime && c.isOnCurve x y then some (x, y) else none
    else if rest.length = c.octets then do
      let (even, odd) ← c.lift? x
      if form = 2 then some even
      else if form = 3 then some odd
      else if form = 5 then some (if even.2 < odd.2 then even else odd)
      else none
    else none

/-- Both coordinates of a point behind `04`. -/
def encodePoint (c : Curve) (point : Nat × Nat) : Bytes :=
  4 :: Bytes.ofNatBE c.octets point.1 ++ Bytes.ofNatBE c.octets point.2

end Curve

end JarSigners.PublicKey
