import JarSigners.Certificate.Basic
import JarSigners.Digest.Algorithm
import JarSigners.PublicKey.Modular

/-!
# RSA signatures

A signature is the power of a padded digest. The padding leaves no freedom: for a modulus and a
digest there is exactly one padded message, so a signature agrees with at most one digest of
one algorithm.
-/

set_option autoImplicit false

namespace JarSigners.PublicKey

open Asn1 (Element)

structure RsaKey where
  modulus : Nat
  exponent : Nat
  deriving DecidableEq, Repr

namespace RsaKey

def algorithm : Asn1.Oid := .ofArcs 1 2 [840, 113549, 1, 1, 1]

/-- The largest modulus, in bits. -/
def maxModulusBits : Nat := 4096

def nullElement : Element := ⟨Asn1.tagNull, []⟩

/-- A key read from a certificate, if it is one that is worked with. -/
def ofInfo? (info : PublicKeyInfo) : Option RsaKey := do
  if info.algorithm = ⟨algorithm, some nullElement⟩ then
    let e ← Element.ofBytes? (← info.key.whole?)
    match ← e.items? Asn1.tagSequence with
    | [modulus, exponent] =>
      let n ← (← Asn1.Integer.ofElement? modulus).toNat?
      let e ← (← Asn1.Integer.ofElement? exponent).toNat?
      if n < Nat.pow 2 maxModulusBits && 2 ≤ e && e < Nat.pow 2 33 then some ⟨n, e⟩ else none
    | _ => none
  else none

/-- The key as a certificate states it. -/
def info (key : RsaKey) : PublicKeyInfo :=
  let numbers := Element.sequence
    [(Asn1.Integer.ofNat key.modulus).element, (Asn1.Integer.ofNat key.exponent).element]
  ⟨⟨algorithm, some nullElement⟩, ⟨0, numbers.encode⟩⟩

/-- The octets of the modulus. -/
def octets (key : RsaKey) : Nat :=
  (Bytes.ofNat key.modulus).length

/-- A digest with the name of its algorithm. -/
def digestInfo (a : Digest.Algorithm) (hashed : Bytes) : Bytes :=
  (Element.sequence
    [.sequence [a.oid.element, nullElement], ⟨Asn1.tagOctetString, hashed⟩]).encode

/-- The padded message for a digest: `00 01 FF … FF 00` and the digest with its algorithm, as
long as the modulus. At least eight octets `FF` have to fit. -/
def padded? (length : Nat) (a : Digest.Algorithm) (hashed : Bytes) : Option Bytes :=
  let info := digestInfo a hashed
  if info.length + 11 ≤ length then
    some (0 :: 1 :: List.replicate (length - info.length - 3) 0xFF ++ 0 :: info)
  else none

/-- Whether a signature is the one for this digest. -/
def verifies (key : RsaKey) (a : Digest.Algorithm) (hashed signature : Bytes) : Bool :=
  let s := Bytes.toNatBE signature
  match padded? key.octets a hashed with
  | none => false
  | some message =>
    signature.length = key.octets && s < key.modulus &&
      powMod key.modulus s key.exponent = Bytes.toNatBE message

/-- Sign with the exponent that undoes the key's own. -/
def sign? (key : RsaKey) (privateExponent : Nat) (a : Digest.Algorithm) (hashed : Bytes) :
    Option Bytes :=
  (padded? key.octets a hashed).map fun message =>
    Bytes.ofNatBE key.octets (powMod key.modulus (Bytes.toNatBE message) privateExponent)

end RsaKey

end JarSigners.PublicKey
