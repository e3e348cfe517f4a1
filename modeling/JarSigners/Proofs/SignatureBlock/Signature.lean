import JarSigners.Proofs.Digest.Names
import JarSigners.Proofs.Steps
import JarSigners.SignatureBlock

/-!
# When a signature in a block is accepted

A signature is accepted with the first certificate that its signer means, if the digest algorithm
is known, signed attributes state the digest of the content, the key is of a supported kind, and
it verifies the digest of the octets that the signature covers. Otherwise the signature is
refused by the first of these that fails. Checking a signature tells exactly these cases apart.
-/

set_option autoImplicit false

namespace JarSigners

open Digest (Algorithm)

/-! ### The certificate -/

/-- A certificate is the one that a signer means. -/
inductive SignerId.Means : SignerId → Certificate → Prop
  | issuerAndSerial (c : Certificate) : Means (.issuerAndSerial c.body.issuer c.body.serial) c
  | keyIdentifier {octets : Bytes} {c : Certificate} (h : c.keyIdentifier? = some octets) :
    Means (.keyIdentifier octets) c

theorem SignerId.isOf_iff {id : SignerId} {c : Certificate} : id.isOf c = true ↔ id.Means c := by
  constructor
  · intro h
    cases id with
    | issuerAndSerial issuer serial =>
      obtain ⟨rfl, rfl⟩ : c.body.issuer = issuer ∧ c.body.serial = serial := by
        simpa [isOf] using h
      exact .issuerAndSerial c
    | keyIdentifier octets => exact .keyIdentifier (by simpa [isOf] using h)
  · intro h
    cases h with
    | issuerAndSerial => simp [isOf]
    | keyIdentifier hidentifier => simp [isOf, hidentifier]

namespace SignatureBlock

/-- A certificate is the first of a pool that a signer means. -/
def Finds (pool : List Certificate) (id : SignerId) (certificate : Certificate) : Prop :=
  ∃ before after, pool = before ++ certificate :: after ∧
    (∀ c ∈ before, ¬ id.Means c) ∧ id.Means certificate

theorem finds_iff {pool : List Certificate} {id : SignerId} {certificate : Certificate} :
    Finds pool id certificate ↔ pool.find? id.isOf = some certificate := by
  rw [List.find?_eq_some_iff_append, SignerId.isOf_iff]
  constructor
  · rintro ⟨before, after, hsplit, hbefore, hmeans⟩
    refine ⟨hmeans, before, after, hsplit, fun c hc => ?_⟩
    simpa [← SignerId.isOf_iff] using hbefore c hc
  · rintro ⟨hmeans, before, after, hsplit, hbefore⟩
    refine ⟨before, after, hsplit, fun c hc => ?_, hmeans⟩
    simpa [← SignerId.isOf_iff] using hbefore c hc

/-! ### The octets that a signature covers -/

/-- The first value of the first attribute for the digest of the content is this octet string. -/
def StatesDigest (attributes : List MessageAttribute) (stated : Bytes) : Prop :=
  ∃ before found after rest, attributes = before ++ found :: after ∧
    (∀ a ∈ before, a.kind ≠ messageDigestKind) ∧ found.kind = messageDigestKind ∧
    found.values = ⟨Asn1.tagOctetString, stated⟩ :: rest

theorem statedDigest?_eq_some_iff {attributes : List MessageAttribute} {stated : Bytes} :
    statedDigest? attributes = some stated ↔ StatesDigest attributes stated := by
  have hcontent : ∀ value : Asn1.Element, value.content? Asn1.tagOctetString = some stated ↔
      value = ⟨Asn1.tagOctetString, stated⟩ := by
    rintro ⟨tag, content⟩
    simp only [Asn1.Element.content?, Option.ite_none_right_eq_some, Option.some.injEq,
      Asn1.Element.mk.injEq]
  simp only [statedDigest?, Option.bind_eq_bind, Option.bind_eq_some_iff, hcontent,
    List.find?_eq_some_iff_append, List.head?_eq_some_iff]
  constructor
  · rintro ⟨found, ⟨hkind, before, after, hsplit, hbefore⟩, value, ⟨rest, hvalues⟩, rfl⟩
    exact ⟨before, found, after, rest, hsplit, fun a ha => by simpa using hbefore a ha,
      of_decide_eq_true hkind, hvalues⟩
  · rintro ⟨before, found, after, rest, hsplit, hbefore, hkind, hvalues⟩
    exact ⟨found, ⟨decide_eq_true hkind, before, after, hsplit,
      fun a ha => by simpa using hbefore a ha⟩, _, ⟨rest, hvalues⟩, rfl⟩

/-- A signature covers these octets: the content if nothing else is signed, and signed
attributes, written as a set, if they state the digest of the content. -/
inductive Covers (ctx : BlockContext) (a : Algorithm) :
    Option (List MessageAttribute) → Bytes → Prop
  | content : Covers ctx a none ctx.content
  | attributes {attributes : List MessageAttribute}
    (hstates : StatesDigest attributes (a.digest ctx.content)) :
    Covers ctx a (some attributes) (attributeOctets attributes)

/-- Why signed attributes are refused. -/
inductive RefusesAttributes (ctx : BlockContext) (a : Algorithm) :
    Option (List MessageAttribute) → TrustFailure → Prop
  | noMessageDigest {attributes : List MessageAttribute}
    (hnone : ∀ stated, ¬ StatesDigest attributes stated) :
    RefusesAttributes ctx a (some attributes) (.invalidBlock ctx.block .missingMessageDigest)
  | otherMessageDigest {attributes : List MessageAttribute} {stated : Bytes}
    (hstates : StatesDigest attributes stated) (hother : stated ≠ a.digest ctx.content) :
    RefusesAttributes ctx a (some attributes) (.signatureFails ctx.block ctx.signatureFile)

section Attributes

variable {ctx : BlockContext} {a : Algorithm} {attributes : Option (List MessageAttribute)}

theorem coveredOctets_of_covers {covered : Bytes} (h : Covers ctx a attributes covered) :
    coveredOctets ctx a attributes = .ok covered := by
  cases h with
  | content => rfl
  | attributes hstates =>
    simp only [coveredOctets, statedDigest?_eq_some_iff.2 hstates, if_true]

theorem coveredOctets_of_refuses {failure : TrustFailure}
    (h : RefusesAttributes ctx a attributes failure) :
    coveredOctets ctx a attributes = .error failure := by
  cases h with
  | @noMessageDigest attributes hnone =>
    have hstated : statedDigest? attributes = none := by
      rw [Option.eq_none_iff_forall_ne_some]
      exact fun stated h => hnone stated (statedDigest?_eq_some_iff.1 h)
    simp only [coveredOctets, hstated]
  | otherMessageDigest hstates hother =>
    simp only [coveredOctets, statedDigest?_eq_some_iff.2 hstates, if_neg hother]

theorem covers_or_refuses (ctx : BlockContext) (a : Algorithm)
    (attributes : Option (List MessageAttribute)) :
    (∃ covered, Covers ctx a attributes covered) ∨
      ∃ failure, RefusesAttributes ctx a attributes failure := by
  cases attributes with
  | none => exact .inl ⟨_, .content⟩
  | some attributes =>
    by_cases hstates : ∃ stated, StatesDigest attributes stated
    · obtain ⟨stated, hstates⟩ := hstates
      by_cases hsame : stated = a.digest ctx.content
      · exact .inl ⟨_, .attributes (hsame ▸ hstates)⟩
      · exact .inr ⟨_, .otherMessageDigest hstates hsame⟩
    · exact .inr ⟨_, .noMessageDigest fun stated h => hstates ⟨stated, h⟩⟩

end Attributes

/-! ### The key -/

/-- How signatures over digests are verified with a key of a supported kind. -/
inductive VerifiedBy (info : PublicKeyInfo) : (Algorithm → Bytes → Bytes → Bool) → Prop
  | rsa (hkind : info.algorithm.oid = PublicKey.RsaKey.algorithm) :
    VerifiedBy info fun a hashed signature =>
      (PublicKey.RsaKey.ofInfo? info).any fun key => key.verifies a hashed signature
  | p256 (hkind : info.algorithm.oid = PublicKey.Ecdsa.algorithm)
    (hcurve : curveName? info = some PublicKey.Ecdsa.p256Name) :
    VerifiedBy info fun _ => PublicKey.Ecdsa.verifiesInfo PublicKey.p256 info
  | p384 (hkind : info.algorithm.oid = PublicKey.Ecdsa.algorithm)
    (hcurve : curveName? info = some PublicKey.Ecdsa.p384Name) :
    VerifiedBy info fun _ => PublicKey.Ecdsa.verifiesInfo PublicKey.p384 info

/-- Why a key is refused, whatever it signed. -/
inductive RefusesKey (block : String) (info : PublicKeyInfo) : TrustFailure → Prop
  | unknownKey (hrsa : info.algorithm.oid ≠ PublicKey.RsaKey.algorithm)
    (hcurve : info.algorithm.oid ≠ PublicKey.Ecdsa.algorithm) :
    RefusesKey block info (.unknownAlgorithm block .key (some info.algorithm.oid))
  | unknownCurve (hkind : info.algorithm.oid = PublicKey.Ecdsa.algorithm)
    (hp256 : curveName? info ≠ some PublicKey.Ecdsa.p256Name)
    (hp384 : curveName? info ≠ some PublicKey.Ecdsa.p384Name) :
    RefusesKey block info (.unknownAlgorithm block .curve (curveName? info))

section Key

variable {block : String} {info : PublicKeyInfo}

theorem ecdsa_ne_rsa : PublicKey.Ecdsa.algorithm ≠ PublicKey.RsaKey.algorithm := by
  decide

theorem p384Name_ne_p256Name : PublicKey.Ecdsa.p384Name ≠ PublicKey.Ecdsa.p256Name := by
  decide

theorem keyVerifies_of_verifiedBy {verifies : Algorithm → Bytes → Bytes → Bool}
    (h : VerifiedBy info verifies) (a : Algorithm) (hashed signature : Bytes) :
    keyVerifies block info a hashed signature = .ok (verifies a hashed signature) := by
  cases h with
  | rsa hkind =>
    rw [keyVerifies, if_pos hkind]
    cases PublicKey.RsaKey.ofInfo? info <;> rfl
  | p256 hkind hcurve =>
    simp only [keyVerifies, hkind, if_neg ecdsa_ne_rsa, hcurve, if_true]
  | p384 hkind hcurve =>
    simp only [keyVerifies, hkind, if_neg ecdsa_ne_rsa, hcurve, Option.some.injEq,
      if_neg p384Name_ne_p256Name, if_true]

theorem keyVerifies_of_refuses {failure : TrustFailure} (h : RefusesKey block info failure)
    (a : Algorithm) (hashed signature : Bytes) :
    keyVerifies block info a hashed signature = .error failure := by
  cases h with
  | unknownKey hrsa hcurve => simp only [keyVerifies, if_neg hrsa, if_neg hcurve]
  | unknownCurve hkind hp256 hp384 =>
    simp only [keyVerifies, hkind, if_neg ecdsa_ne_rsa, if_true, if_neg hp256, if_neg hp384]

theorem verifiedBy_or_refuses (block : String) (info : PublicKeyInfo) :
    (∃ verifies, VerifiedBy info verifies) ∨ ∃ failure, RefusesKey block info failure := by
  by_cases hrsa : info.algorithm.oid = PublicKey.RsaKey.algorithm
  · exact .inl ⟨_, .rsa hrsa⟩
  by_cases hcurve : info.algorithm.oid = PublicKey.Ecdsa.algorithm
  · by_cases hp256 : curveName? info = some PublicKey.Ecdsa.p256Name
    · exact .inl ⟨_, .p256 hcurve hp256⟩
    by_cases hp384 : curveName? info = some PublicKey.Ecdsa.p384Name
    · exact .inl ⟨_, .p384 hcurve hp384⟩
    · exact .inr ⟨_, .unknownCurve hcurve hp256 hp384⟩
  · exact .inr ⟨_, .unknownKey hrsa hcurve⟩

end Key

/-! ### The signature -/

/-- A signature is accepted with a certificate. -/
structure Accepts (ctx : BlockContext) (pool : List Certificate) (s : SignerInfo)
    (certificate : Certificate) : Prop where
  found : Finds pool s.id certificate
  verified : ∃ a covered verifies, a.oid = s.digestAlgorithm.oid ∧
    Covers ctx a s.signedAttributes covered ∧
    VerifiedBy certificate.body.publicKey verifies ∧
    verifies a (a.digest covered) s.signature = true

/-- Why a signature is refused: the first requirement that it does not meet. -/
inductive Refuses (ctx : BlockContext) (pool : List Certificate) (s : SignerInfo) :
    TrustFailure → Prop
  | noCertificate (hnone : ∀ c ∈ pool, ¬ s.id.Means c) :
    Refuses ctx pool s (.missingCertificate ctx.block)
  | unknownDigest {certificate : Certificate} (hfound : Finds pool s.id certificate)
    (hunknown : ∀ a : Algorithm, a.oid ≠ s.digestAlgorithm.oid) :
    Refuses ctx pool s (.unknownAlgorithm ctx.block .digest (some s.digestAlgorithm.oid))
  | attributes {certificate : Certificate} {a : Algorithm} {failure : TrustFailure}
    (hfound : Finds pool s.id certificate) (hdigest : a.oid = s.digestAlgorithm.oid)
    (hrefuses : RefusesAttributes ctx a s.signedAttributes failure) :
    Refuses ctx pool s failure
  | key {certificate : Certificate} {a : Algorithm} {covered : Bytes} {failure : TrustFailure}
    (hfound : Finds pool s.id certificate) (hdigest : a.oid = s.digestAlgorithm.oid)
    (hcovers : Covers ctx a s.signedAttributes covered)
    (hrefuses : RefusesKey ctx.block certificate.body.publicKey failure) :
    Refuses ctx pool s failure
  | signature {certificate : Certificate} {a : Algorithm} {covered : Bytes}
    {verifies : Algorithm → Bytes → Bytes → Bool}
    (hfound : Finds pool s.id certificate) (hdigest : a.oid = s.digestAlgorithm.oid)
    (hcovers : Covers ctx a s.signedAttributes covered)
    (hkey : VerifiedBy certificate.body.publicKey verifies)
    (hfails : verifies a (a.digest covered) s.signature = false) :
    Refuses ctx pool s (.signatureFails ctx.block ctx.signatureFile)

variable {ctx : BlockContext} {pool : List Certificate} {s : SignerInfo} {failure : TrustFailure}

theorem signerChain_of_accepts {certificate : Certificate} (h : Accepts ctx pool s certificate) :
    signerChain ctx pool s = .ok (.climb pool certificate) := by
  obtain ⟨a, covered, verifies, hdigest, hcovers, hkey, htrue⟩ := h.verified
  have hcheck : checkSignature ctx s certificate = .ok () := by
    simp only [checkSignature, Algorithm.ofOid?_eq_some_iff.2 hdigest, coveredOctets_of_covers hcovers,
      Steps.ok_bind, keyVerifies_of_verifiedBy hkey, htrue, if_true]
  simp only [signerChain, finds_iff.1 h.found, hcheck, Steps.ok_bind]

theorem signerChain_of_refuses (h : Refuses ctx pool s failure) :
    signerChain ctx pool s = .error failure := by
  cases h with
  | noCertificate hnone =>
    have hfind : pool.find? s.id.isOf = none := by
      rw [List.find?_eq_none]
      exact fun c hc hisOf => hnone c hc (SignerId.isOf_iff.1 hisOf)
    simp only [signerChain, hfind]
  | unknownDigest hfound hunknown =>
    have hdigest : Algorithm.ofOid? s.digestAlgorithm.oid = none := by
      rw [Option.eq_none_iff_forall_ne_some]
      exact fun a ha => hunknown a (Algorithm.ofOid?_eq_some_iff.1 ha)
    simp only [signerChain, finds_iff.1 hfound, checkSignature, hdigest, Steps.error_bind]
  | attributes hfound hdigest hrefuses =>
    simp only [signerChain, finds_iff.1 hfound, checkSignature,
      Algorithm.ofOid?_eq_some_iff.2 hdigest, coveredOctets_of_refuses hrefuses, Steps.error_bind]
  | key hfound hdigest hcovers hrefuses =>
    simp only [signerChain, finds_iff.1 hfound, checkSignature,
      Algorithm.ofOid?_eq_some_iff.2 hdigest, coveredOctets_of_covers hcovers, Steps.ok_bind,
      keyVerifies_of_refuses hrefuses, Steps.error_bind]
  | signature hfound hdigest hcovers hkey hfails =>
    simp only [signerChain, finds_iff.1 hfound, checkSignature,
      Algorithm.ofOid?_eq_some_iff.2 hdigest, coveredOctets_of_covers hcovers, Steps.ok_bind,
      keyVerifies_of_verifiedBy hkey, hfails, Bool.false_eq_true, if_false, Steps.error_bind]

theorem finds_or_none (pool : List Certificate) (id : SignerId) :
    (∃ certificate, Finds pool id certificate) ∨ ∀ c ∈ pool, ¬ id.Means c := by
  cases hfind : pool.find? id.isOf with
  | some certificate => exact .inl ⟨certificate, finds_iff.2 hfind⟩
  | none =>
    rw [List.find?_eq_none] at hfind
    exact .inr fun c hc hmeans => hfind c hc (SignerId.isOf_iff.2 hmeans)

/-- Each requirement is met or not, in the order in which they are checked. -/
theorem accepts_or_refuses (ctx : BlockContext) (pool : List Certificate) (s : SignerInfo) :
    (∃ certificate, Accepts ctx pool s certificate) ∨ ∃ failure, Refuses ctx pool s failure := by
  obtain ⟨certificate, hfound⟩ | hnone := finds_or_none pool s.id
  case inr => exact .inr ⟨_, .noCertificate hnone⟩
  by_cases hdigest : ∃ a : Algorithm, a.oid = s.digestAlgorithm.oid
  case neg => exact .inr ⟨_, .unknownDigest hfound fun a ha => hdigest ⟨a, ha⟩⟩
  obtain ⟨a, hdigest⟩ := hdigest
  obtain ⟨covered, hcovers⟩ | ⟨failure, hrefuses⟩ := covers_or_refuses ctx a s.signedAttributes
  case inr => exact .inr ⟨failure, .attributes hfound hdigest hrefuses⟩
  obtain ⟨verifies, hkey⟩ | ⟨failure, hrefuses⟩ :=
    verifiedBy_or_refuses ctx.block certificate.body.publicKey
  case inr => exact .inr ⟨failure, .key hfound hdigest hcovers hrefuses⟩
  cases hresult : verifies a (a.digest covered) s.signature with
  | true => exact .inl ⟨certificate, hfound, a, covered, verifies, hdigest, hcovers, hkey, hresult⟩
  | false => exact .inr ⟨_, .signature hfound hdigest hcovers hkey hresult⟩

theorem signerChain_eq_ok_iff {chain : Chain} :
    signerChain ctx pool s = .ok chain ↔
      ∃ certificate, Accepts ctx pool s certificate ∧ chain = .climb pool certificate := by
  constructor
  · intro h
    obtain ⟨certificate, haccepts⟩ | ⟨failure, hrefuses⟩ := accepts_or_refuses ctx pool s
    · rw [signerChain_of_accepts haccepts] at h
      exact ⟨certificate, haccepts, (Except.ok.inj h).symm⟩
    · rw [signerChain_of_refuses hrefuses] at h
      cases h
  · rintro ⟨certificate, haccepts, rfl⟩
    exact signerChain_of_accepts haccepts

theorem signerChain_eq_error_iff :
    signerChain ctx pool s = .error failure ↔ Refuses ctx pool s failure := by
  constructor
  · intro h
    obtain ⟨certificate, haccepts⟩ | ⟨other, hrefuses⟩ := accepts_or_refuses ctx pool s
    · rw [signerChain_of_accepts haccepts] at h
      cases h
    · rw [signerChain_of_refuses hrefuses] at h
      cases h
      exact hrefuses
  · exact signerChain_of_refuses

end SignatureBlock

end JarSigners
