import JarSigners.Certificate.Basic
import JarSigners.Digest.Algorithm

/-!
# Certificate chains

A chain begins with the signer's own certificate, its leaf. It is named by a digest of all its
encodings one behind the other. `Chain.climb` follows issuers through a pool of certificates;
a certificate is used at most once, so names that form a cycle do not keep it going.
-/

set_option autoImplicit false

namespace JarSigners

/-- A leaf and the certificates of its issuers, nearest first. -/
structure Chain where
  leaf : Certificate
  issuers : List Certificate
  deriving DecidableEq, Repr

namespace Chain

def certificates (c : Chain) : List Certificate :=
  c.leaf :: c.issuers

/-- The chain with these certificates, leaf first. -/
def ofCertificates? : List Certificate → Option Chain
  | [] => none
  | leaf :: issuers => some ⟨leaf, issuers⟩

/-- The octets that name the chain when hashed. -/
def encoding (c : Chain) : Bytes :=
  c.certificates.flatMap Certificate.encode

def fingerprint (c : Chain) : Bytes :=
  Digest.sha256.digest c.encoding

def displayName (c : Chain) : String :=
  c.leaf.body.subject.display

/-- The encoding of the signer's own public key. -/
def publicKey (c : Chain) : Bytes :=
  c.leaf.body.publicKey.encode

/-- Whether a certificate can come next: it is the issuer's and is not in the chain yet. -/
def continues (current : Certificate) (used : List Certificate) (candidate : Certificate) :
    Bool :=
  candidate.body.subject = current.body.issuer && !used.contains candidate

/-- The issuers above `current` in a pool, nearest first. `used` holds what the chain has so
far; `unused` bounds how many can still come. -/
def issuersAbove (pool : List Certificate) :
    (unused : Nat) → (current : Certificate) → (used : List Certificate) → List Certificate
  | 0, _, _ => []
  | unused + 1, current, used =>
    if current.isSelfIssued then []
    else
      match pool.find? (continues current used) with
      | none => []
      | some next => next :: issuersAbove pool unused next (next :: used)

/-- The chain of a leaf, built from the first fitting certificates of a pool. -/
def climb (pool : List Certificate) (leaf : Certificate) : Chain :=
  ⟨leaf, issuersAbove pool pool.length leaf [leaf]⟩

end Chain

end JarSigners
