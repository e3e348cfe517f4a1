import JarSigners.Proofs.PublicKey.Rsa
import JarSigners.Proofs.Signing.Collected
import JarSigners.Proofs.Signing.Stored

/-!
# RSA signers are honest

A signer is honest whose RSA key verifies its own signatures and whose certificate states this key
and is read back (`Signer.honest_of_rsa`): the signatures are all of one length, and so are the
blocks. Two such signers with a key of two Mersenne primes, and one with another such key, stand for
others in what follows.
-/

set_option autoImplicit false

namespace JarSigners

open Asn1 (Element)

/-- Octets that begin differently differ. -/
theorem Bytes.ne_of_heads {a b : Bytes} {x y : UInt8} (ha : a.head? = some x)
    (hb : b.head? = some y) (hxy : x ≠ y) : a ≠ b := by
  rintro rfl
  exact hxy (Option.some.inj (ha.symm.trans hb))

/-! ### The key -/

namespace PublicKey.RsaKey

theorem length_digestInfo (hashed : Bytes) (hlength : hashed.length = 32) :
    (digestInfo .sha256 hashed).length = 51 := by
  have hitems : ∀ inner : Element, inner.content.length = 13 →
      (Element.sequence [inner, ⟨Asn1.tagOctetString, hashed⟩]).encode.length = 51 := by
    intro inner hinner
    rw [Element.length_encode, Element.sequence, Element.length_content_around]
    simp only [List.map_cons, List.map_nil, hinner, hlength]
    decide +kernel
  exact hitems _ (by decide +kernel)

/-- A modulus of 62 octets has room for a padded digest. -/
theorem exists_sign? {key : RsaKey} (hroom : 62 ≤ key.octets) (privateExponent : Nat)
    (content : Bytes) :
    ∃ signature, key.sign? privateExponent .sha256 (Digest.Algorithm.sha256.digest content) =
      some signature := by
  have hinfo : (digestInfo .sha256 (Digest.Algorithm.sha256.digest content)).length = 51 :=
    length_digestInfo _ (Digest.length_sha256 content)
  have hpadded : ∃ message,
      padded? key.octets .sha256 (Digest.Algorithm.sha256.digest content) = some message := by
    refine ⟨_, if_pos ?_⟩
    rw [hinfo]
    omega
  obtain ⟨message, hmessage⟩ := hpadded
  rw [sign?, hmessage]
  exact ⟨_, rfl⟩

end PublicKey.RsaKey

namespace SigningKey

variable {key : PublicKey.RsaKey} {privateExponent : Nat}

/-- A key with room for a padded digest signs every message. -/
theorem sign?_rsa (hroom : 62 ≤ key.octets) (privateExponent : Nat) (message : Bytes) :
    key.sign? privateExponent .sha256 (Digest.Algorithm.sha256.digest message) =
      some ((rsa key privateExponent).sign message) := by
  obtain ⟨signature, hsign⟩ := PublicKey.RsaKey.exists_sign? hroom privateExponent message
  have hsignature : (rsa key privateExponent).sign message = signature :=
    Option.getD_eq_iff.2 (Or.inl hsign)
  rw [hsignature, hsign]

/-- It verifies what it signs, if its exponents undo each other. -/
theorem verifies_rsa (hroom : 62 ≤ key.octets)
    (hundo : ∀ x < key.modulus, x ^ (privateExponent * key.exponent) % key.modulus = x)
    (message : Bytes) :
    key.verifies .sha256 (Digest.Algorithm.sha256.digest message)
      ((rsa key privateExponent).sign message) = true := by
  have hmodulus : key.modulus ≠ 0 := by
    intro hzero
    rw [PublicKey.RsaKey.octets, hzero] at hroom
    exact absurd hroom (by decide)
  exact PublicKey.RsaKey.verifies_sign? hmodulus hundo (sign?_rsa hroom privateExponent message)

end SigningKey

/-! ### Blocks -/

namespace Signer

variable {s : Signer}

/-- Elements around others of the same lengths are of the same length. -/
theorem length_around_congr {tag : UInt8} {items others : List Element}
    (h : items.map (fun e => e.content.length) = others.map fun e => e.content.length) :
    (Element.around tag items).content.length = (Element.around tag others).content.length := by
  have hwidths := congrArg (List.map Element.width) h
  rw [List.map_map, List.map_map] at hwidths
  rw [Element.length_content_around, Element.length_content_around]
  exact congrArg List.sum hwidths

/-- The block with a signature. -/
def blockWith (s : Signer) (signature : Bytes) : Bytes :=
  (Envelope.mk signedDataKind (s.message none signature).element).encode

/-- Signatures of one length make blocks of one length. -/
theorem length_blockWith {signature other : Bytes} (h : signature.length = other.length) :
    (s.blockWith signature).length = (s.blockWith other).length := by
  have hinfo : (s.info none signature).element.content.length =
      (s.info none other).element.content.length := by
    rw [info_element, info_element]
    refine length_around_congr ?_
    simp only [infoItems, List.cons_append, List.nil_append, Option.toList_none, List.map_cons,
      List.map_nil, h]
    rfl
  have hset : (Element.around Asn1.tagSet [(s.info none signature).element]).content.length =
      (Element.around Asn1.tagSet [(s.info none other).element]).content.length :=
    length_around_congr (by rw [List.map_singleton, List.map_singleton, hinfo])
  have hmessage : (s.message none signature).element.content.length =
      (s.message none other).element.content.length := by
    rw [message_element, message_element]
    refine length_around_congr ?_
    simp only [messageItems, List.map_cons, List.map_nil, hset]
  have hfield : (Element.around (Element.fieldTag 0)
        [(s.message none signature).element]).content.length =
      (Element.around (Element.fieldTag 0) [(s.message none other).element]).content.length :=
    length_around_congr (by rw [List.map_singleton, List.map_singleton, hmessage])
  rw [blockWith, blockWith, Envelope.encode, Envelope.encode, Element.length_encode,
    Element.length_encode, Envelope.element, Envelope.element]
  refine congrArg Element.width (length_around_congr ?_)
  simp only [List.map_cons, List.map_nil, hfield]

/-! ### Signers -/

variable {key : PublicKey.RsaKey} {privateExponent : Nat}

theorem length_block_rsa (hkey : s.key = .rsa key privateExponent) (hroom : 62 ≤ key.octets)
    (content : Bytes) :
    (s.block false content).length = (s.blockWith (List.replicate key.octets 0)).length := by
  have hsign := SigningKey.sign?_rsa hroom privateExponent content
  have hlength : (s.key.sign content).length = (List.replicate key.octets (0 : UInt8)).length := by
    rw [hkey, PublicKey.RsaKey.length_sign? hsign, List.length_replicate]
  have hblock : s.block false content = s.blockWith (s.key.sign content) := rfl
  rw [hblock, length_blockWith hlength]

/-- A signer with an RSA key whose exponents undo each other and with a certificate for it. -/
theorem honest_of_rsa (hkey : s.key = .rsa key privateExponent) (hroom : 62 ≤ key.octets)
    (hundo : ∀ x < key.modulus, x ^ (privateExponent * key.exponent) % key.modulus = x)
    (hstates : s.certificate.body.publicKey = key.info)
    (hinfo : PublicKey.RsaKey.ofInfo? key.info = some key)
    (hread : Certificate.ofElement? s.certificate.element = some s.certificate)
    (hfits : (s.blockWith (List.replicate key.octets 0)).length ≤ Asn1.maxContent) :
    s.Honest where
  read := hread
  fits := by
    intro content
    rw [length_block_rsa hkey hroom]
    exact hfits
  verifies := by
    intro block content
    have hkind : key.info.algorithm.oid = PublicKey.RsaKey.algorithm := rfl
    rw [hkey, hstates, SignatureBlock.keyVerifies, if_pos hkind, hinfo]
    exact congrArg Except.ok (SigningKey.verifies_rsa hroom hundo content)

/-! ### Signers with a key of two Mersenne primes -/

/-- A key that is known to undo its own exponent. -/
def mersenneKey : PublicKey.RsaKey :=
  ⟨mersenne 127 * mersenne 521, 65537⟩

theorem prime_mersenne_521 : (mersenne 521).Prime :=
  lucas_lehmer_sufficiency _ (by norm_num) (by norm_num)

/-- The exponent that undoes the public one. -/
def mersenneExponent : Nat :=
  193900767558032071937636487021452117448910287312278971207800283425644781136078887330150457137153435273259066364624685827854923748501752122182388647400968388233585136878839649485385373845435689473

theorem mersenneKey_undo : ∀ x < mersenneKey.modulus,
    x ^ (mersenneExponent * mersenneKey.exponent) % mersenneKey.modulus = x := by
  have hprime : (mersenne 127).Prime := lucas_lehmer_sufficiency _ (by norm_num) (by norm_num)
  have hpower : mersenneExponent * mersenneKey.exponent % (mersenne 127 - 1) = 1 := by
    decide +kernel
  have hpower' : mersenneExponent * mersenneKey.exponent % (mersenne 521 - 1) = 1 := by
    decide +kernel
  exact fun x hx =>
    PublicKey.pow_mod_eq_self hprime prime_mersenne_521 (by decide +kernel) hpower hpower' hx

/-- A certificate for this key, signed by nobody. -/
def plainCertificate (serial : UInt8) (name : String) : Certificate :=
  let key := SigningKey.rsa mersenneKey mersenneExponent
  ⟨certificateBody ⟨[serial]⟩ ⟨[[⟨.ofArcs 2 5 [4, 3], ⟨Asn1.tagUtf8, Text.utf8 name⟩⟩]]⟩ key,
    key.kind.signatureAlgorithm, ⟨0, []⟩⟩

/-- A signer with such a certificate. -/
def plain (keyName : String) (serial : UInt8) (name : String) : Signer :=
  ⟨keyName, .rsa mersenneKey mersenneExponent, plainCertificate serial name⟩

/-- What one block of such a signer takes, all of them take. -/
theorem length_block_plain (keyName : String) (serial : UInt8) (name : String) (content : Bytes) :
    ((plain keyName serial name).block false content).length =
      ((plain keyName serial name).blockWith (List.replicate mersenneKey.octets 0)).length :=
  length_block_rsa rfl (by decide +kernel) content

/-- A signer together with what makes its signatures count and keeps its files short. -/
structure Known where
  signer : Signer
  honest : signer.Honest
  brief : signer.Brief

/-- A signer with such a certificate is known as soon as the certificate is read back and one of
its blocks is short. -/
def Known.plain (keyName : String) (serial : UInt8) (name : String)
    (hread : Certificate.ofElement? (plainCertificate serial name).element =
      some (plainCertificate serial name))
    (hfits : ((Signer.plain keyName serial name).blockWith
      (List.replicate mersenneKey.octets 0)).length ≤ 2 ^ 20)
    (hfile : (Text.utf8 (Signer.plain keyName serial name).signatureFileName).length ≤ 1000)
    (hblock : (Text.utf8 (Signer.plain keyName serial name).blockName).length ≤ 1000) : Known where
  signer := .plain keyName serial name
  honest := by
    have hroom : 62 ≤ mersenneKey.octets := by decide +kernel
    have hinfo : PublicKey.RsaKey.ofInfo? mersenneKey.info = some mersenneKey := by decide +kernel
    exact honest_of_rsa rfl hroom mersenneKey_undo rfl hinfo hread (hfits.trans (by decide))
  brief :=
    { signatureFileName := hfile
      blockName := hblock
      block := by
        intro content
        rw [length_block_plain]
        exact hfits }

def first : Signer := .plain "first" 1 "First"

def second : Signer := .plain "second" 2 "Second"

theorem head_digest_first :
    (Digest.sha256.digest first.certificate.encode).head? = some 12 := by
  decide +kernel

theorem head_digest_second :
    (Digest.sha256.digest second.certificate.encode).head? = some 245 := by
  decide +kernel

theorem digest_first_ne_second : Digest.sha256.digest first.certificate.encode ≠
    Digest.sha256.digest second.certificate.encode :=
  Bytes.ne_of_heads head_digest_first head_digest_second (by decide)

def knownFirst : Known :=
  .plain "first" 1 "First" (by decide +kernel) (by decide +kernel)
    (Text.length_utf8_le_of_short (by decide)) (Text.length_utf8_le_of_short (by decide))

def knownSecond : Known :=
  .plain "second" 2 "Second" (by decide +kernel) (by decide +kernel)
    (Text.length_utf8_le_of_short (by decide)) (Text.length_utf8_le_of_short (by decide))

theorem honest_first : first.Honest := knownFirst.honest

theorem honest_second : second.Honest := knownSecond.honest

theorem brief_first : first.Brief := knownFirst.brief

theorem brief_second : second.Brief := knownSecond.brief

theorem independent_first_second : Independent [first, second] :=
  independent_pair (by decide) honest_first honest_second digest_first_ne_second

/-! ### A signer with another key -/

/-- A key of two other Mersenne primes. -/
def otherKey : PublicKey.RsaKey :=
  ⟨mersenne 89 * mersenne 521, 65537⟩

/-- The exponent that undoes the public one. -/
def otherExponent : Nat :=
  6240577869500397196990820126384555555642005903305784278459887592785582995105161893791842509370233446156468131186310128237050364493617067850317265162077925574136566807282817936785023

/-- A signer with this key. -/
def other : Signer :=
  let key := SigningKey.rsa otherKey otherExponent
  let name : DistinguishedName := ⟨[[⟨.ofArcs 2 5 [4, 3], ⟨Asn1.tagUtf8, Text.utf8 "Other"⟩⟩]]⟩
  ⟨"other", key, ⟨certificateBody ⟨[3]⟩ name key, key.kind.signatureAlgorithm, ⟨0, []⟩⟩⟩

end Signer

end JarSigners
