import JarSigners.Certificate.Basic
import JarSigners.Digest.Algorithm
import JarSigners.PublicKey.Curve

/-!
# Signatures on elliptic curves
-/

set_option autoImplicit false

namespace JarSigners.PublicKey

open Asn1 (Element)

namespace Ecdsa

def algorithm : Asn1.Oid := .ofArcs 1 2 [840, 10045, 2, 1]

def p256Name : Asn1.Oid := .ofArcs 1 2 [840, 10045, 3, 1, 7]

def p384Name : Asn1.Oid := .ofArcs 1 3 [132, 0, 34]

/-- The two numbers of a signature. -/
def numbers? (signature : Bytes) : Option (Nat × Nat) := do
  let e ← Element.ofBytes? signature
  match ← e.items? Asn1.tagSequence with
  | [r, s] =>
    some (← (← Asn1.Integer.ofElement? r).toNat?, ← (← Asn1.Integer.ofElement? s).toNat?)
  | _ => none

/-- The number a digest stands for: its first octets where it is longer than a coordinate. A
digest of less than half that length stands for none. -/
def digestNumber? (c : Curve) (hashed : Bytes) : Option Nat :=
  if hashed.length < c.octets / 2 then none
  else some (Bytes.toNatBE (hashed.take c.octets) % c.order)

/-- Whether the two numbers are a signature of the digest by the key. -/
def verifies (c : Curve) (key : Nat × Nat) (hashed : Bytes) (r s : Nat) : Bool :=
  match digestNumber? c hashed with
  | none => false
  | some z =>
    if 0 < r && r < c.order && 0 < s && s < c.order then
      let inverse := invMod c.order s
      let sum := c.add (c.times (z * inverse % c.order) (Curve.ofAffine c.generator))
        (c.times (r * inverse % c.order) (Curve.ofAffine key))
      match c.affine? sum with
      | some (x, _) => x % c.order = r
      | none => false
    else false

/-- Whether a signature on this curve verifies with the key of a certificate. The algorithm has
to name the curve. -/
def verifiesInfo (c : Curve) (info : PublicKeyInfo) (hashed signature : Bytes) : Bool :=
  match info.key.whole?.bind c.point?, numbers? signature with
  | some key, some (r, s) => verifies c key hashed r s
  | _, _ => false

/-- The public key of a secret number, as a certificate states it. -/
def info? (c : Curve) (curveName : Asn1.Oid) (secret : Nat) : Option PublicKeyInfo :=
  (c.affine? (c.times secret (Curve.ofAffine c.generator))).map fun point =>
    ⟨⟨algorithm, some curveName.element⟩, ⟨0, c.encodePoint point⟩⟩

/-- Sign a digest with a secret number and a number used once. -/
def sign? (c : Curve) (secret once : Nat) (hashed : Bytes) : Option Bytes := do
  let z ← digestNumber? c hashed
  let (x, _) ← c.affine? (c.times once (Curve.ofAffine c.generator))
  let r := x % c.order
  let s := invMod c.order once * ((z + r * secret) % c.order) % c.order
  if r = 0 || s = 0 then none
  else some (Element.sequence [(Asn1.Integer.ofNat r).element, (Asn1.Integer.ofNat s).element]).encode

end Ecdsa

end JarSigners.PublicKey
