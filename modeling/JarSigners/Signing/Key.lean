import JarSigners.PublicKey.Ecdsa
import JarSigners.PublicKey.Rsa

/-!
# Signing keys

A signing key is a public key together with the ability to sign for it; the secret stays
inside. Messages are signed by their SHA-256 digests.
-/

set_option autoImplicit false

namespace JarSigners

inductive KeyKind where
  | rsa | ec
  deriving DecidableEq, Repr

namespace KeyKind

/-- The ending of signature blocks made with keys of this kind. -/
def blockEnding : KeyKind → String
  | rsa => "RSA"
  | ec => "EC"

/-- The algorithm of signatures made with keys of this kind. -/
def signatureAlgorithm : KeyKind → AlgorithmIdentifier
  | rsa => ⟨.ofArcs 1 2 [840, 113549, 1, 1, 11], some PublicKey.RsaKey.nullElement⟩
  | ec => ⟨.ofArcs 1 2 [840, 10045, 4, 3, 2], none⟩

end KeyKind

structure SigningKey where
  kind : KeyKind
  publicKey : PublicKeyInfo
  /-- Sign a message. -/
  sign : Bytes → Bytes

namespace SigningKey

def digestAlgorithm : Digest.Algorithm := .sha256

/-- The key of an RSA modulus, with the exponent that undoes the public one. A modulus too short
for a digest gives empty signatures. -/
def rsa (key : PublicKey.RsaKey) (privateExponent : Nat) : SigningKey where
  kind := .rsa
  publicKey := key.info
  sign message :=
    (key.sign? privateExponent digestAlgorithm (digestAlgorithm.digest message)).getD []

/-- The number used once in signing a digest: it hangs on the secret and on the digest, and on
nothing else, so that signing twice gives one signature. -/
def onceFor (c : PublicKey.Curve) (secret : Nat) (hashed : Bytes) : Nat :=
  Bytes.toNatBE (digestAlgorithm.digest (Bytes.ofNatBE c.octets secret ++ hashed)) % c.order

/-- The key of a secret number on the curve P-256, if it is one. -/
def ec? (secret : Nat) : Option SigningKey :=
  (PublicKey.Ecdsa.info? PublicKey.p256 PublicKey.Ecdsa.p256Name secret).map fun info =>
    { kind := .ec
      publicKey := info
      sign := fun message =>
        let hashed := digestAlgorithm.digest message
        (PublicKey.Ecdsa.sign? PublicKey.p256 secret (onceFor PublicKey.p256 secret hashed)
          hashed).getD [] }

end SigningKey

end JarSigners
