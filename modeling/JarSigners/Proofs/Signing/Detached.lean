import JarSigners.Proofs.SignatureBlock.Verification
import JarSigners.Proofs.Signing.Issued

/-!
# Detached signatures verify

Whatever the name, the key and the content of a signer, the block that the signer makes is accepted
over this content and stands for the signer's own certificate; with signed attributes it is refused
over every content of another digest (`detached_block_verifies`). That a key verifies what it
signed is all that is asked of the arithmetic of keys; keys of RSA exponents that undo each other
do (`SigningKey.verifiesOwn_rsa`).
-/

set_option autoImplicit false

namespace JarSigners

namespace SigningKey

/-- Whether a key verifies its own signature of a message. -/
def verifiesOwn (key : SigningKey) (message : Bytes) : Bool :=
  let hashed := digestAlgorithm.digest message
  match key.kind with
  | .rsa => (PublicKey.RsaKey.ofInfo? key.publicKey).any fun known =>
      known.verifies digestAlgorithm hashed (key.sign message)
  | .ec => PublicKey.Ecdsa.verifiesInfo PublicKey.p256 key.publicKey hashed (key.sign message)

/-- The public key names the algorithm and the curve by which its signatures are verified. -/
theorem Generated.keyVerifies {key : SigningKey} (h : key.Generated) {message : Bytes}
    (hverifies : key.verifiesOwn message = true) (block : String) :
    SignatureBlock.keyVerifies block key.publicKey digestAlgorithm (digestAlgorithm.digest message)
      (key.sign message) = .ok true := by
  cases h with
  | rsa key privateExponent =>
    rw [SignatureBlock.keyVerifies_of_verifiedBy (.rsa rfl)]
    exact congrArg Except.ok hverifies
  | ec hsecret =>
    obtain ⟨info, hinfo, rfl⟩ := Option.map_eq_some_iff.1 hsecret
    obtain ⟨point, -, rfl⟩ := Option.map_eq_some_iff.1 hinfo
    have hname : Asn1.Oid.ofElement? PublicKey.Ecdsa.p256Name.element =
        some PublicKey.Ecdsa.p256Name := by
      decide
    have hcurve : ∀ key : Asn1.BitString, SignatureBlock.curveName?
        ⟨⟨PublicKey.Ecdsa.algorithm, some PublicKey.Ecdsa.p256Name.element⟩, key⟩ =
          some PublicKey.Ecdsa.p256Name := fun _ => hname
    rw [SignatureBlock.keyVerifies_of_verifiedBy (.p256 rfl (hcurve _))]
    exact congrArg Except.ok hverifies

/-- RSA keys whose exponents undo each other verify what they sign. -/
theorem verifiesOwn_rsa {key : PublicKey.RsaKey} {privateExponent : Nat} (hroom : 62 ≤ key.octets)
    (hundo : ∀ x < key.modulus, x ^ (privateExponent * key.exponent) % key.modulus = x)
    (hinfo : PublicKey.RsaKey.ofInfo? key.info = some key) (message : Bytes) :
    (rsa key privateExponent).verifiesOwn message = true := by
  have hown : (rsa key privateExponent).verifiesOwn message =
      (PublicKey.RsaKey.ofInfo? key.info).any fun known => known.verifies digestAlgorithm
        (digestAlgorithm.digest message) ((rsa key privateExponent).sign message) := rfl
  rw [hown, hinfo]
  exact verifies_rsa hroom hundo message

end SigningKey

namespace Signer

open SignatureBlock

variable {s : Signer} {content : Bytes}

/-- Signed attributes state the digest of the content that they stand for. -/
theorem statesDigest_attributesFor (content : Bytes) :
    StatesDigest (attributesFor content) (Digest.sha256.digest content) :=
  statedDigest?_eq_some_iff.1 rfl

/-- A signature over attributes is refused with a content of another digest, whoever made it. -/
theorem refuses_other_content {ctx : BlockContext} {signature : Bytes}
    (hother : Digest.sha256.digest ctx.content ≠ Digest.sha256.digest content) :
    Refuses ctx [s.certificate] (s.info (some (attributesFor content)) signature)
      (.signatureFails ctx.block ctx.signatureFile) := by
  have hfound : Finds [s.certificate] (s.info (some (attributesFor content)) signature).id
      s.certificate :=
    ⟨[], [], rfl, by simp, .issuerAndSerial s.certificate⟩
  have hattributes : RefusesAttributes ctx SigningKey.digestAlgorithm (some (attributesFor content))
      (.signatureFails ctx.block ctx.signatureFile) :=
    .otherMessageDigest (statesDigest_attributesFor content) hother.symm
  exact .attributes hfound rfl hattributes

/-- A signer's certificate is read back from any block that is not too long. -/
theorem Issued.read_certificate_of_block (h : s.Issued) {withAttributes : Bool}
    (hlength : (s.block withAttributes content).length ≤ Asn1.maxContent) :
    Certificate.ofElement? s.certificate.element = some s.certificate := by
  obtain ⟨-, -, hmessage⟩ := readable_block hlength
  rw [messageFor_eq] at hmessage
  exact h.read_certificate (readable_certificate hmessage)

/-- A block that is not too long to be written, as its signer makes it with or without signed
attributes, stands over its content for the signer's certificate alone, if the signer's key
verifies what it signed. With signed attributes, the signature fails over any content of another
digest. -/
theorem detached_block_verifies (hissued : s.Issued) (withAttributes : Bool) (content : Bytes)
    (hlength : (s.block withAttributes content).length ≤ Asn1.maxContent)
    (block signatureFile : String) :
    (s.key.verifiesOwn (signedOctets withAttributes content) = true →
      chains ⟨block, signatureFile, content⟩ (s.block withAttributes content) =
        .ok [⟨s.certificate, []⟩]) ∧
    (withAttributes = true → ∀ other,
      Digest.sha256.digest other ≠ Digest.sha256.digest content →
        chains ⟨block, signatureFile, other⟩ (s.block withAttributes content) =
          .error (.signatureFails block signatureFile)) := by
  have hread := hissued.read_certificate_of_block hlength
  constructor
  · intro hverifies
    obtain ⟨hkey, hgenerated⟩ := hissued.publicKey_eq
    have hcheck := hgenerated.keyVerifies hverifies block
    rw [← hkey] at hcheck
    exact @chains_block_of_keyVerifies s ⟨block, signatureFile, content⟩ _ hread hlength hcheck
  · intro hattributes other hother
    rw [chains, message_block block hread hlength, Steps.ok_bind, messageChains_eq_error_iff]
    subst hattributes
    exact Or.inr ⟨[], _, [], rfl, by simp, refuses_other_content hother⟩

/-! ### Signers of both kinds -/

theorem isSome_ec?_one : (SigningKey.ec? 1).isSome = true := by
  decide +kernel

/-- The key of the secret number one. -/
def curveKey : SigningKey :=
  (SigningKey.ec? 1).get isSome_ec?_one

/-- A signer with a key on a curve, and with a certificate that nobody signed. -/
def curveSigner : Signer :=
  let name : DistinguishedName := ⟨[[⟨.ofArcs 2 5 [4, 6], ⟨Asn1.tagUtf8, Text.utf8 "ES"⟩⟩],
    [⟨.ofArcs 2 5 [4, 10], ⟨Asn1.tagUtf8, Text.utf8 "Alice Corp"⟩⟩]]⟩
  ⟨"curve", curveKey, ⟨bodyBetween notBefore notAfter ⟨[1, 2, 3, 4, 5, 6, 7, 8]⟩ name curveKey,
    curveKey.kind.signatureAlgorithm, ⟨0, []⟩⟩⟩

/-- A signer with an RSA key and an empty name. -/
def rsaSigner : Signer :=
  .issue "rsa" ⟨[0x7F, 0, 0, 0, 0, 0, 0, 1]⟩ ⟨[]⟩ (.rsa mersenneKey mersenneExponent)

theorem issued_curveSigner : curveSigner.Issued := by
  have hname : DistinguishedName.ofPairs [("o", "Alice Corp"), ("C", "ES")] =
      .ok curveSigner.certificate.body.subject := by
    decide +kernel
  have hkey : curveKey.Generated := .ec (Option.some_get isSome_ec?_one).symm
  exact .certified "curve" [] (by decide) (by decide) (by decide) rfl hname hkey

theorem issued_rsaSigner : rsaSigner.Issued := by
  have hname : DistinguishedName.ofPairs [] = .ok ⟨[]⟩ := rfl
  exact issued_issue "rsa" (by decide) rfl hname (.rsa mersenneKey mersenneExponent)

theorem detached_blocks_of_both_kinds :
    chains ⟨"B", "S", [97]⟩ (curveSigner.block false [97]) = .ok [⟨curveSigner.certificate, []⟩] ∧
    chains ⟨"B", "S", [97]⟩ (rsaSigner.block true [97]) = .ok [⟨rsaSigner.certificate, []⟩] ∧
    chains ⟨"B", "S", [98]⟩ (rsaSigner.block true [97]) = .error (.signatureFails "B" "S") := by
  have hcurve := detached_block_verifies issued_curveSigner false [97] (by decide +kernel) "B" "S"
  have hrsa := detached_block_verifies issued_rsaSigner true [97] (by decide +kernel) "B" "S"
  have hown : rsaSigner.key.verifiesOwn (signedOctets true [97]) = true :=
    SigningKey.verifiesOwn_rsa (by decide +kernel) mersenneKey_undo (by decide +kernel) _
  exact ⟨hcurve.1 (by decide +kernel), hrsa.1 hown, hrsa.2 rfl [98] (by decide +kernel)⟩

end Signer

end JarSigners
