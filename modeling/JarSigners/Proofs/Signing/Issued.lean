import JarSigners.Proofs.Signing.Block

/-!
# What a signer issues is read back

The name, the serial number and the key of a signer stand in the certificate that the signer
issues, and are read back from it as they are (`Signer.Issued.read_certificate`), if it is not too
long for its encoding. The kinds of names and of keys are few, so their identifiers are read back
one by one; values, numbers and times are arbitrary.
-/

set_option autoImplicit false

namespace JarSigners

open Asn1 (Element Oid Integer BitString)

/-- Reading undoes writing of every member, so it undoes writing of all. -/
theorem Asn1.mapM_read {α : Type} {read : Element → Option α} {write : α → Element} {xs : List α}
    (h : ∀ x ∈ xs, read (write x) = some x) : (xs.map write).mapM read = some xs := by
  induction xs with
  | nil => rfl
  | cons x xs ih =>
    obtain ⟨hx, hxs⟩ := List.forall_mem_cons.1 h
    rw [List.map_cons, List.mapM_cons, hx, ih hxs]
    rfl

/-! ### Keys -/

theorem Asn1.BitString.read_whole (tag : UInt8) (octets : Bytes) :
    BitString.ofElement? tag (BitString.element tag ⟨0, octets⟩) = some ⟨0, octets⟩ := by
  simp only [BitString.ofElement?, BitString.element, Element.content?, if_true, Option.bind_some,
    BitString.content]
  rfl

/-- A public key of whole octets is read back, if its algorithm is. -/
theorem PublicKeyInfo.read_whole {a : AlgorithmIdentifier} {octets : Bytes}
    (ha : AlgorithmIdentifier.ofElement? a.element = some a)
    (hreadable : (PublicKeyInfo.mk a ⟨0, octets⟩).element.Readable) :
    ofElement? (PublicKeyInfo.mk a ⟨0, octets⟩).element = some ⟨a, ⟨0, octets⟩⟩ := by
  have hitems : (PublicKeyInfo.mk a ⟨0, octets⟩).element.items? Asn1.tagSequence =
      some [a.element, BitString.element Asn1.tagBitString ⟨0, octets⟩] := by
    refine Element.items?_sequence fun e he => hreadable.of_around he ?_
    simp only [List.mem_cons, List.not_mem_nil, or_false] at he
    rcases he with rfl | rfl <;> rfl
  simp only [ofElement?, hitems, Option.bind_eq_bind, Option.bind_some, ha, BitString.read_whole]

namespace SigningKey

/-- A key of one of the kinds that signers have. -/
inductive Generated : SigningKey → Prop
  | rsa (key : PublicKey.RsaKey) (privateExponent : Nat) : Generated (.rsa key privateExponent)
  | ec {secret : Nat} {key : SigningKey} (hsecret : ec? secret = some key) : Generated key

/-- The parts of a public key that depend on its kind only, and the octets of the others. -/
theorem Generated.publicKey_eq {key : SigningKey} (h : key.Generated) :
    ∃ octets, key.publicKey = ⟨⟨PublicKey.RsaKey.algorithm, some PublicKey.RsaKey.nullElement⟩,
        ⟨0, octets⟩⟩ ∨
      key.publicKey = ⟨⟨PublicKey.Ecdsa.algorithm, some PublicKey.Ecdsa.p256Name.element⟩,
        ⟨0, octets⟩⟩ := by
  cases h with
  | rsa key privateExponent => exact ⟨_, Or.inl rfl⟩
  | ec hsecret =>
    obtain ⟨info, hinfo, rfl⟩ := Option.map_eq_some_iff.1 hsecret
    obtain ⟨point, -, rfl⟩ := Option.map_eq_some_iff.1 hinfo
    exact ⟨_, Or.inr rfl⟩

theorem Generated.read_publicKey {key : SigningKey} (h : key.Generated)
    (hreadable : key.publicKey.element.Readable) :
    PublicKeyInfo.ofElement? key.publicKey.element = some key.publicKey := by
  obtain ⟨octets, hkey | hkey⟩ := h.publicKey_eq
  · rw [hkey] at hreadable ⊢
    exact PublicKeyInfo.read_whole (by decide +kernel) hreadable
  · rw [hkey] at hreadable ⊢
    exact PublicKeyInfo.read_whole (by decide +kernel) hreadable

end SigningKey

/-! ### Names -/

namespace DistinguishedName

/-- A part of one attribute is read back, if the kind of this is. -/
theorem read_part_one {kind : Oid} {value : Element}
    (hkind : Oid.ofElement? kind.element = some kind) (hvalue : Asn1.isTag value.tag = true)
    (hreadable : (partElement [⟨kind, value⟩]).Readable) :
    part? (partElement [⟨kind, value⟩]) = some [⟨kind, value⟩] := by
  have hattribute : (NameAttribute.element ⟨kind, value⟩).Readable :=
    hreadable.of_around List.mem_cons_self rfl
  have hitems : (NameAttribute.element ⟨kind, value⟩).items? Asn1.tagSequence =
      some [kind.element, value] := by
    apply Element.items?_sequence
    exact List.forall_mem_cons.2 ⟨hattribute.of_around List.mem_cons_self rfl,
      List.forall_mem_singleton.2
        (hattribute.of_around (List.mem_cons_of_mem _ List.mem_cons_self) hvalue)⟩
  have hread : NameAttribute.ofElement? (NameAttribute.element ⟨kind, value⟩) =
      some ⟨kind, value⟩ := by
    simp only [NameAttribute.ofElement?, hitems, hkind, Option.bind_eq_bind, Option.bind_some]
  have hset : (partElement [⟨kind, value⟩]).items? Asn1.tagSet =
      some [NameAttribute.element ⟨kind, value⟩] := by
    apply Element.items?_around
    exact List.forall_mem_singleton.2 hattribute
  simp only [part?, hset, Option.bind_eq_bind, Option.bind_some, List.mapM_cons, List.mapM_nil,
    hread, Option.pure_def, Asn1.setOf?_singleton]

/-- A part of a given name is one attribute of a known kind. -/
theorem givenPart_eq_ok {pair : String × String} {part : List NameAttribute}
    (h : givenPart pair = .ok part) : ∃ kind : Oid, Oid.ofElement? kind.element = some kind ∧
      part = [⟨kind, ⟨Asn1.tagUtf8, Text.utf8 pair.2⟩⟩] := by
  have hknown : ∀ known ∈ givenKinds, Oid.ofElement? known.2.element = some known.2 := by
    decide
  unfold givenPart at h
  cases hkind : givenKind? pair.1 with
  | none => simp [hkind] at h
  | some kind =>
    obtain ⟨known, hfound, rfl⟩ := Option.map_eq_some_iff.1 hkind
    rw [hkind] at h
    exact ⟨known.2, hknown known (List.mem_of_find?_eq_some hfound), (Except.ok.inj h).symm⟩

/-- A name that was given is read back. -/
theorem read_ofPairs {pairs : List (String × String)} {name : DistinguishedName}
    (h : ofPairs pairs = .ok name) (hreadable : name.element.Readable) :
    ofElement? name.element = some name := by
  obtain ⟨parts, hparts, rfl⟩ := Steps.map_eq_ok_iff.1 h
  have hset : ∀ part ∈ parts, (partElement part).Readable := by
    intro part hpart
    exact hreadable.of_around (List.mem_map_of_mem hpart) rfl
  have hread : ∀ part ∈ parts, part? (partElement part) = some part := by
    intro part hpart
    obtain ⟨pair, -, hpair⟩ := Steps.exists_of_mem_of_mapM_eq_ok hparts hpart
    obtain ⟨kind, hkind, rfl⟩ := givenPart_eq_ok hpair
    exact read_part_one hkind rfl (hset _ hpart)
  have hitems : (DistinguishedName.mk parts).element.items? Asn1.tagSequence =
      some (parts.map partElement) := by
    apply Element.items?_sequence
    exact List.forall_mem_map.2 hset
  simp only [ofElement?, hitems, Option.bind_eq_bind, Option.bind_some, Asn1.mapM_read hread]

end DistinguishedName

/-! ### Times -/

theorem Asn1.Time.isTag_of_isValid {e : Element} (h : Asn1.Time.isValid e = true) :
    Asn1.isTag e.tag = true := by
  unfold Asn1.Time.isValid at h
  split at h
  next hutc => rw [hutc]; rfl
  next =>
    split at h
    next hgeneralized => rw [hgeneralized]; rfl
    next => cases h

/-- Valid times are read back. -/
theorem CertificateBody.read_validity {notBefore notAfter : Element}
    (hfrom : Asn1.Time.isValid notBefore = true) (huntil : Asn1.Time.isValid notAfter = true)
    (hreadable : (Element.sequence [notBefore, notAfter]).Readable) :
    validity? (.sequence [notBefore, notAfter]) = some (notBefore, notAfter) := by
  have hitems : (Element.sequence [notBefore, notAfter]).items? Asn1.tagSequence =
      some [notBefore, notAfter] := by
    apply Element.items?_sequence
    exact List.forall_mem_cons.2
      ⟨hreadable.of_around List.mem_cons_self (Asn1.Time.isTag_of_isValid hfrom),
        List.forall_mem_singleton.2 (hreadable.of_around
          (List.mem_cons_of_mem _ List.mem_cons_self) (Asn1.Time.isTag_of_isValid huntil))⟩
  simp only [validity?, hitems, Option.bind_eq_bind, Option.bind_some, hfrom, huntil, Bool.and_self,
    if_true]

/-! ### Certificates -/

namespace Signer

/-- What a signer's certificate states that is good between any two times. -/
def bodyBetween (notBefore notAfter : Element) (serial : Integer) (name : DistinguishedName)
    (key : SigningKey) : CertificateBody :=
  { certificateBody serial name key with notBefore, notAfter }

/-- A signer with a key of a known kind, a name that can be given and a positive serial number of
eight octets. The certificate is good between some times; what signs it is not looked at. -/
inductive Issued : Signer → Prop
  | certified (keyName : String) {notBefore notAfter : Element} {first : UInt8} {rest : Bytes}
    {pairs : List (String × String)} {name : DistinguishedName} {key : SigningKey}
    (signature : Bytes) (hfrom : Asn1.Time.isValid notBefore = true)
    (huntil : Asn1.Time.isValid notAfter = true) (hpositive : 1 ≤ first ∧ first < 0x80)
    (hseven : rest.length = 7) (hname : DistinguishedName.ofPairs pairs = .ok name)
    (hkey : key.Generated) :
    Issued ⟨keyName, key, ⟨bodyBetween notBefore notAfter ⟨first :: rest⟩ name key,
      key.kind.signatureAlgorithm, ⟨0, signature⟩⟩⟩

/-- So is one that issues the certificate. -/
theorem issued_issue (keyName : String) {first : UInt8} {rest : Bytes}
    {pairs : List (String × String)} {name : DistinguishedName} {key : SigningKey}
    (hpositive : 1 ≤ first ∧ first < 0x80) (hseven : rest.length = 7)
    (hname : DistinguishedName.ofPairs pairs = .ok name) (hkey : key.Generated) :
    (issue keyName ⟨first :: rest⟩ name key).Issued :=
  .certified keyName _ (by decide : Asn1.Time.isValid notBefore = true)
    (by decide : Asn1.Time.isValid notAfter = true) hpositive hseven hname hkey

theorem read_serial {first : UInt8} {rest : Bytes} (hpositive : 1 ≤ first ∧ first < 0x80)
    (hseven : rest.length = 7) :
    CertificateBody.serial? (Integer.element ⟨first :: rest⟩) = some ⟨first :: rest⟩ := by
  obtain ⟨second, rest, rfl⟩ := List.exists_cons_of_length_eq_add_one hseven
  have hzero : first ≠ 0 := by
    rintro rfl
    exact absurd hpositive.1 (by decide)
  have hnegative : first ≠ 0xFF := by
    rintro rfl
    exact absurd hpositive.2 (by decide)
  have hshortest : Integer.isShortest (first :: second :: rest) = true := by
    simp [Integer.isShortest, hzero, hnegative]
  have hlength : (first :: second :: rest).length ≤ CertificateBody.maxSerial := by
    rw [List.length_cons, hseven]
    decide
  simp only [CertificateBody.serial?, Integer.ofElement?, Integer.element, Element.content?,
    if_true, hshortest, Option.bind_eq_bind, Option.bind_some, hlength]

/-- What a certificate states is read back, if its number, its name and its key are. -/
theorem read_bodyBetween {notBefore notAfter : Element} {serial : Integer}
    {name : DistinguishedName} {key : SigningKey}
    (hfrom : Asn1.Time.isValid notBefore = true) (huntil : Asn1.Time.isValid notAfter = true)
    (hserial : CertificateBody.serial? serial.element = some serial)
    (hname : name.element.Readable → DistinguishedName.ofElement? name.element = some name)
    (hkey : key.publicKey.element.Readable →
      PublicKeyInfo.ofElement? key.publicKey.element = some key.publicKey)
    (hreadable : (bodyBetween notBefore notAfter serial name key).element.Readable) :
    CertificateBody.ofElement? (bodyBetween notBefore notAfter serial name key).element =
      some (bodyBetween notBefore notAfter serial name key) := by
  have hitems : (bodyBetween notBefore notAfter serial name key).element.items? Asn1.tagSequence =
      some (.around (Element.fieldTag 0) [(Integer.ofNat 2).element] ::
        (bodyBetween notBefore notAfter serial name key).required) := by
    have helement := CertificateBody.element_eq (bodyBetween notBefore notAfter serial name key)
    rw [helement] at hreadable ⊢
    have hall := Element.items?_sequence fun e he =>
      hreadable.of_around he (CertificateBody.isTag_of_mem_element he)
    rw [hall]
    rfl
  have hmem : ∀ e ∈ (bodyBetween notBefore notAfter serial name key).required,
      Asn1.isTag e.tag = true → e.Readable := by
    intro e he htag
    rw [CertificateBody.element_eq] at hreadable
    exact hreadable.of_around
      (List.mem_append_right _ (List.mem_append_left _ he)) htag
  have hrequired : (bodyBetween notBefore notAfter serial name key).required =
      [serial.element, key.kind.signatureAlgorithm.element, name.element,
        .sequence [notBefore, notAfter], name.element, key.publicKey.element] := rfl
  rw [hrequired] at hitems hmem
  have hversion : CertificateBody.version?
      (some (.around (Element.fieldTag 0) [(Integer.ofNat 2).element])) = some 2 := by
    decide +kernel
  have hvalidity := CertificateBody.read_validity hfrom huntil
    (hmem (.sequence [notBefore, notAfter]) (by simp) rfl)
  have hreadName := hname (hmem name.element (by simp) rfl)
  have hreadKey := hkey (hmem key.publicKey.element (by simp) rfl)
  simp only [CertificateBody.ofElement?, hitems, Option.bind_eq_bind, Option.bind_some,
    Element.takeField_around_zero, hversion, hserial, read_signatureAlgorithm, hreadName, hvalidity,
    hreadKey]
  rfl

/-- The certificate of a signer is read back. -/
theorem Issued.read_certificate {s : Signer} (h : s.Issued)
    (hreadable : s.certificate.element.Readable) :
    Certificate.ofElement? s.certificate.element = some s.certificate := by
  have hitems := Certificate.items?_element hreadable
  have hbody := Certificate.readable_body hreadable
  cases h with
  | certified keyName signature hfrom huntil hpositive hseven hname hkey =>
    have hread := read_bodyBetween hfrom huntil (read_serial hpositive hseven)
      (DistinguishedName.read_ofPairs hname) hkey.read_publicKey hbody
    simp only [Certificate.ofElement?, hitems, Option.bind_eq_bind, Option.bind_some, hread,
      read_signatureAlgorithm, BitString.read_whole]

/-- The key in the certificate of a signer is the signer's own. -/
theorem Issued.publicKey_eq {s : Signer} (h : s.Issued) :
    s.certificate.body.publicKey = s.key.publicKey ∧ s.key.Generated := by
  cases h with
  | certified _ _ _ _ _ _ _ hkey => exact ⟨rfl, hkey⟩

end Signer

end JarSigners
