import JarSigners.Proofs.Asn1.RoundTrip
import JarSigners.Proofs.Steps
import JarSigners.Signing.Block

/-!
# A block is read back

The message in a block that a signer made is read back as it was written, if the signer's
certificate can be read and the block is not too long for its encoding. So where the signer's key
verifies what it signed, the block stands for the signer's certificate and nothing else.
-/

set_option autoImplicit false

namespace JarSigners

open Asn1 (Element Oid Integer BitString)

/-! ### Certificates -/

namespace CertificateBody

/-- The field in front of a body's serial number. -/
def versionField (b : CertificateBody) : List Element :=
  if b.version = 0 then []
  else [.around (Element.fieldTag 0) [(Integer.ofNat b.version).element]]

/-- What stands between the version and the optional fields. -/
def required (b : CertificateBody) : List Element :=
  [b.serial.element, b.issuerAlgorithm.element, b.issuer.element,
    .sequence [b.notBefore, b.notAfter], b.subject.element, b.publicKey.element]

/-- The optional fields at the end. -/
def trailer (b : CertificateBody) : List Element :=
  b.issuerId.toList.map (BitString.element (Element.plainFieldTag 1)) ++
    b.subjectId.toList.map (BitString.element (Element.plainFieldTag 2)) ++
    b.extensions.toList.map fun xs => .around (Element.fieldTag 3) [Extension.listElement xs]

theorem element_eq (b : CertificateBody) :
    b.element = .sequence (b.versionField ++ (b.required ++ b.trailer)) := by
  simp only [element, versionField, required, trailer, List.append_assoc]

theorem isTag_of_mem_element {b : CertificateBody} {e : Element}
    (h : e ∈ b.versionField ++ (b.required ++ b.trailer)) : Asn1.isTag e.tag = true := by
  simp only [versionField, required, trailer, List.mem_append, List.mem_cons, List.mem_map,
    List.not_mem_nil, or_false] at h
  rcases h with h | h | (⟨_, -, rfl⟩ | ⟨_, -, rfl⟩) | ⟨_, -, rfl⟩
  · split at h
    · cases h
    · rw [List.mem_singleton.mp h]
      exact (by decide : Asn1.isTag (Element.fieldTag 0) = true)
  · rcases h with rfl | rfl | rfl | rfl | rfl | rfl <;> rfl
  · exact (by decide : Asn1.isTag (Element.plainFieldTag 1) = true)
  · exact (by decide : Asn1.isTag (Element.plainFieldTag 2) = true)
  · exact (by decide : Asn1.isTag (Element.fieldTag 3) = true)

/-- The field of the version is taken off, whether it is there or not. -/
theorem takeField_versionField (b : CertificateBody) :
    (Element.takeField 0 (b.versionField ++ (b.required ++ b.trailer))).2 =
      b.required ++ b.trailer := by
  unfold versionField
  split
  · rw [List.nil_append, required, List.cons_append, Element.takeField_of_plain 0 _ rfl]
  · rw [List.cons_append, List.nil_append, Element.takeField_around_zero]

/-- A body that is read back has a name and a serial number that are. -/
theorem read_issuer_serial {b : CertificateBody} (hreadable : b.element.Readable)
    (h : ofElement? b.element = some b) :
    DistinguishedName.ofElement? b.issuer.element = some b.issuer ∧
      serial? b.serial.element = some b.serial := by
  have hitems : b.element.items? Asn1.tagSequence =
      some (b.versionField ++ (b.required ++ b.trailer)) := by
    rw [element_eq] at hreadable ⊢
    exact Element.items?_sequence fun e he => hreadable.of_around he (isTag_of_mem_element he)
  have hrest := takeField_versionField b
  simp only [ofElement?, hitems, Option.bind_eq_bind, Option.bind_some] at h
  rw [hrest] at h
  simp only [required, List.cons_append, Option.bind_eq_some_iff] at h
  obtain ⟨version, -, serial, hserial, algorithm, -, issuer, hissuer, _, -, subject, -, key, -, _,
    -, hb⟩ := h
  injection hb with hb
  rw [hserial, hissuer, ← hb]
  exact ⟨rfl, rfl⟩

end CertificateBody

namespace Certificate

theorem items?_element {c : Certificate} (hreadable : c.element.Readable) :
    c.element.items? Asn1.tagSequence =
      some [c.body.element, c.algorithm.element, c.signature.element Asn1.tagBitString] := by
  refine Element.items?_sequence fun e he => hreadable.of_around he ?_
  simp only [List.mem_cons, List.not_mem_nil, or_false] at he
  rcases he with rfl | rfl | rfl <;> rfl

/-- A certificate that is read back has a body that is. -/
theorem read_body {c : Certificate} (hreadable : c.element.Readable)
    (h : ofElement? c.element = some c) : CertificateBody.ofElement? c.body.element = some c.body := by
  simp only [ofElement?, items?_element hreadable, Option.bind_eq_bind, Option.bind_some,
    Option.bind_eq_some_iff] at h
  obtain ⟨body, hbody, algorithm, -, signature, -, hc⟩ := h
  injection hc with hc
  rw [hbody, ← hc]

theorem readable_body {c : Certificate} (hreadable : c.element.Readable) :
    c.body.element.Readable :=
  hreadable.of_around List.mem_cons_self rfl

end Certificate

/-! ### Sets of one or two members -/

theorem Asn1.setOf?_singleton {α : Type} (rank : α → Asn1.Rank) (x : α) :
    Asn1.setOf? rank [x] = some [x] := rfl

theorem Asn1.setOf?_pair {α : Type} {rank : α → Asn1.Rank} {x y : α}
    (h : Asn1.compareRanks (rank x) (rank y) = .lt) : Asn1.setOf? rank [x, y] = some [x, y] := by
  simp [Asn1.setOf?, Asn1.placeMember?, h]

/-! ### Signed attributes -/

namespace MessageAttribute

/-- An attribute with one value is read back. -/
theorem read_one {kind : Oid} {value : Element} (hkind : Oid.ofElement? kind.element = some kind)
    (hvalue : Asn1.isTag value.tag = true) (hreadable : (element ⟨kind, [value]⟩).Readable) :
    ofElement? (element ⟨kind, [value]⟩) = some ⟨kind, [value]⟩ := by
  have hset : (Element.around Asn1.tagSet [value]).Readable :=
    hreadable.of_around (List.mem_cons_of_mem _ List.mem_cons_self) rfl
  have hvalues : (Element.around Asn1.tagSet [value]).items? Asn1.tagSet = some [value] := by
    apply Element.items?_around
    exact List.forall_mem_singleton.2 (hset.of_around List.mem_cons_self hvalue)
  have hitems : (element ⟨kind, [value]⟩).items? Asn1.tagSequence =
      some [kind.element, .around Asn1.tagSet [value]] := by
    apply Element.items?_sequence
    exact List.forall_mem_cons.2 ⟨hreadable.of_around List.mem_cons_self rfl,
      List.forall_mem_singleton.2 hset⟩
  simp only [ofElement?, hitems, hvalues, hkind, Option.bind_eq_bind, Option.bind_some,
    Asn1.setOf?_singleton]

end MessageAttribute

namespace Signer

/-- The attribute that states the kind of the content. -/
def kindAttribute : MessageAttribute :=
  ⟨SignatureBlock.contentKindKind, [dataKind.element]⟩

/-- An attribute that states a digest of the content. -/
def digestAttribute (hashed : Bytes) : MessageAttribute :=
  ⟨SignatureBlock.messageDigestKind, [⟨Asn1.tagOctetString, hashed⟩]⟩

theorem length_digestAttribute {hashed : Bytes} (h : hashed.length = 32) :
    (digestAttribute hashed).element.content.length = 47 := by
  have hset : (Element.around Asn1.tagSet [⟨Asn1.tagOctetString, hashed⟩]).content.length = 34 := by
    rw [Element.length_content_around]
    simp only [List.map_cons, List.map_nil, h]
    decide
  rw [digestAttribute, MessageAttribute.element, Element.sequence, Element.length_content_around]
  simp only [List.map_cons, List.map_nil, hset]
  decide

/-- The shorter attribute comes first in a set. -/
theorem kindAttribute_lt {hashed : Bytes} (h : hashed.length = 32) :
    Asn1.compareRanks kindAttribute.element.rank (digestAttribute hashed).element.rank = .lt := by
  have hkind : ∃ content, kindAttribute.element.encode = 0x30 :: 0x18 :: content :=
    ⟨kindAttribute.element.content, by decide⟩
  have hdigest : (digestAttribute hashed).element.encode =
      0x30 :: 0x2F :: (digestAttribute hashed).element.content := by
    rw [Element.encode, Element.opening, length_digestAttribute h]
    rfl
  obtain ⟨content, hkind⟩ := hkind
  rw [Element.rank, Element.rank, hkind, hdigest]
  rfl

/-- The attributes that a signer signs are read back in their order, whatever the content. -/
theorem read_attributesFor (content : Bytes) :
    MessageAttribute.setOf? (Element.fieldTag 0)
      (MessageAttribute.setElement (Element.fieldTag 0) (attributesFor content)) =
        some (attributesFor content) := by
  have hlength := Digest.length_sha256 content
  have hkind : kindAttribute.element.Readable := by decide
  have hdigest : (digestAttribute (Digest.sha256.digest content)).element.Readable := by
    refine ⟨rfl, ?_⟩
    rw [length_digestAttribute hlength]
    decide
  have hitems : (MessageAttribute.setElement (Element.fieldTag 0) (attributesFor content)).items?
      (Element.fieldTag 0) = some [kindAttribute.element,
        (digestAttribute (Digest.sha256.digest content)).element] := by
    apply Element.items?_around
    exact List.forall_mem_cons.2 ⟨hkind, List.forall_mem_singleton.2 hdigest⟩
  have hread : MessageAttribute.ofElement? kindAttribute.element = some kindAttribute :=
    MessageAttribute.read_one (by decide) rfl hkind
  have hread' : MessageAttribute.ofElement?
      (digestAttribute (Digest.sha256.digest content)).element =
        some (digestAttribute (Digest.sha256.digest content)) :=
    MessageAttribute.read_one (by decide) rfl hdigest
  have hset : Asn1.setOf? (fun a : MessageAttribute => a.element.rank)
      [kindAttribute, digestAttribute (Digest.sha256.digest content)] =
        some [kindAttribute, digestAttribute (Digest.sha256.digest content)] :=
    Asn1.setOf?_pair (kindAttribute_lt hlength)
  simp only [MessageAttribute.setOf?, hitems, Option.bind_eq_bind, Option.bind_some,
    List.mapM_cons, List.mapM_nil, hread, hread', Option.pure_def, hset]
  rfl

end Signer

/-! ### The message -/

namespace Signer

variable {s : Signer} {attributes : Option (List MessageAttribute)} {signature : Bytes}

/-- The elements of a signature. -/
def infoItems (s : Signer) (attributes : Option (List MessageAttribute)) (signature : Bytes) :
    List Element :=
  [(Integer.ofNat 1).element, (s.info attributes signature).id.element, digestAlgorithm.element] ++
    (attributes.toList.map (MessageAttribute.setElement (Element.fieldTag 0)) ++
      [s.key.kind.signatureAlgorithm.element, ⟨Asn1.tagOctetString, signature⟩])

theorem info_element (s : Signer) (attributes : Option (List MessageAttribute))
    (signature : Bytes) :
    (s.info attributes signature).element = .sequence (s.infoItems attributes signature) := by
  simp only [SignerInfo.element, infoItems, info, Option.toList_none, List.map_nil,
    List.append_nil, List.append_assoc]

/-- The elements of a message. -/
def messageItems (s : Signer) (attributes : Option (List MessageAttribute)) (signature : Bytes) :
    List Element :=
  [(Integer.ofNat 1).element, .around Asn1.tagSet [digestAlgorithm.element],
    .sequence [dataKind.element], .around (Element.fieldTag 0) [s.certificate.element],
    .around Asn1.tagSet [(s.info attributes signature).element]]

theorem message_element (s : Signer) (attributes : Option (List MessageAttribute))
    (signature : Bytes) :
    (s.message attributes signature).element = .sequence (s.messageItems attributes signature) :=
  rfl

theorem read_digestAlgorithm :
    AlgorithmIdentifier.ofElement? digestAlgorithm.element = some digestAlgorithm := by
  decide +kernel

theorem read_signatureAlgorithm (kind : KeyKind) :
    AlgorithmIdentifier.ofElement? kind.signatureAlgorithm.element =
      some kind.signatureAlgorithm := by
  cases kind <;> decide +kernel

theorem read_version : Asn1.versionUpTo? maxMessageVersion (Integer.ofNat 1).element = some 1 := by
  decide

/-- The name and number by which a signature finds its certificate are read back. -/
theorem read_id (hcertificate : s.certificate.element.Readable)
    (hread : Certificate.ofElement? s.certificate.element = some s.certificate)
    (hid : (s.info attributes signature).id.element.Readable) :
    SignerId.ofElement? (s.info attributes signature).id.element =
      some (s.info attributes signature).id := by
  have hbody := Certificate.read_body hcertificate hread
  obtain ⟨hissuer, hserial⟩ :=
    CertificateBody.read_issuer_serial (Certificate.readable_body hcertificate) hbody
  have hitems : (s.info attributes signature).id.element.items? Asn1.tagSequence =
      some [s.certificate.body.issuer.element, s.certificate.body.serial.element] := by
    refine Element.items?_sequence fun e he => hid.of_around he ?_
    simp only [List.mem_cons, List.not_mem_nil, or_false] at he
    rcases he with rfl | rfl <;> rfl
  have htag : (s.info attributes signature).id.element.tag ≠ Element.plainFieldTag 0 := by
    exact (by decide : Asn1.tagSequence ≠ Element.plainFieldTag 0)
  simp only [SignerId.ofElement?, if_neg htag, hitems, Option.bind_eq_bind, Option.bind_some,
    hissuer, hserial]
  rfl

theorem isTag_of_mem_info {e : Element}
    (h : e ∈ s.infoItems attributes signature) : Asn1.isTag e.tag = true := by
  simp only [infoItems, List.mem_append, List.mem_cons, List.mem_map, List.not_mem_nil,
    or_false] at h
  rcases h with (rfl | rfl | rfl) | ⟨_, -, rfl⟩ | rfl | rfl
  case inr.inl => exact (by decide : Asn1.isTag (Element.fieldTag 0) = true)
  all_goals rfl

/-- The field of the attributes is taken off, if it is there. -/
theorem takeField_attributes (attributes : Option (List MessageAttribute)) (kind : KeyKind)
    (rest : List Element) :
    Element.takeField 0 (attributes.toList.map (MessageAttribute.setElement (Element.fieldTag 0)) ++
      kind.signatureAlgorithm.element :: rest) =
        (attributes.map (MessageAttribute.setElement (Element.fieldTag 0)),
          kind.signatureAlgorithm.element :: rest) := by
  cases attributes with
  | none => exact Element.takeField_of_plain 0 _ rfl
  | some attributes => exact Element.takeField_around_zero _ _

/-- A signature is read back, if its attributes are. -/
theorem read_info (hcertificate : s.certificate.element.Readable)
    (hread : Certificate.ofElement? s.certificate.element = some s.certificate)
    (hattributes : ∀ as ∈ attributes, MessageAttribute.setOf? (Element.fieldTag 0)
      (MessageAttribute.setElement (Element.fieldTag 0) as) = some as)
    (hinfo : (s.info attributes signature).element.Readable) :
    SignerInfo.ofElement? (s.info attributes signature).element =
      some (s.info attributes signature) := by
  rw [info_element] at hinfo
  have hitems : (s.info attributes signature).element.items? Asn1.tagSequence =
      some (s.infoItems attributes signature) := by
    rw [info_element]
    exact Element.items?_sequence fun e he => hinfo.of_around he (isTag_of_mem_info he)
  have hid := read_id hcertificate hread
    (hinfo.of_around (List.mem_cons_of_mem _ List.mem_cons_self) rfl)
  have hsigned : Element.optional? (MessageAttribute.setOf? (Element.fieldTag 0))
      (attributes.map (MessageAttribute.setElement (Element.fieldTag 0))) = some attributes := by
    cases attributes with
    | none => rfl
    | some attributes => simp only [Option.map_some, Element.optional?, hattributes attributes rfl]
  simp only [SignerInfo.ofElement?, hitems, infoItems, List.cons_append, List.nil_append,
    Option.bind_eq_bind, Option.bind_some, read_version, hid, read_digestAlgorithm,
    takeField_attributes, hsigned, read_signatureAlgorithm]
  rfl

theorem isTag_of_mem_message {e : Element}
    (h : e ∈ s.messageItems attributes signature) : Asn1.isTag e.tag = true := by
  simp only [messageItems, List.mem_cons, List.not_mem_nil, or_false] at h
  rcases h with rfl | rfl | rfl | rfl | rfl
  case inr.inr.inr.inl => exact (by decide : Asn1.isTag (Element.fieldTag 0) = true)
  all_goals rfl

section Readable

variable (hmessage : (s.message attributes signature).element.Readable)

include hmessage

theorem readable_of_mem_message : ∀ e ∈ s.messageItems attributes signature, e.Readable := by
  rw [message_element] at hmessage
  exact fun e he => hmessage.of_around he (isTag_of_mem_message he)

theorem readable_certificate : s.certificate.element.Readable := by
  have hfield : (Element.around (Element.fieldTag 0) [s.certificate.element]).Readable :=
    readable_of_mem_message hmessage _ (by simp [messageItems])
  exact hfield.of_around List.mem_cons_self rfl

theorem readable_info : (s.info attributes signature).element.Readable := by
  have hset : (Element.around Asn1.tagSet [(s.info attributes signature).element]).Readable :=
    readable_of_mem_message hmessage _ (by simp [messageItems])
  exact hset.of_around List.mem_cons_self rfl

end Readable

/-- A message is read back, if its signed attributes are. -/
theorem read_message (hread : Certificate.ofElement? s.certificate.element = some s.certificate)
    (hattributes : ∀ as ∈ attributes, MessageAttribute.setOf? (Element.fieldTag 0)
      (MessageAttribute.setElement (Element.fieldTag 0) as) = some as)
    (hmessage : (s.message attributes signature).element.Readable) :
    SignedData.ofElement? (s.message attributes signature).element =
      some (s.message attributes signature) := by
  have hcertificate := readable_certificate hmessage
  have hinfo := readable_info hmessage
  have hitems : (s.message attributes signature).element.items? Asn1.tagSequence =
      some (s.messageItems attributes signature) := by
    rw [message_element]
    exact Element.items?_sequence (readable_of_mem_message hmessage)
  have halgorithms : SignedData.digestAlgorithms? (.around Asn1.tagSet [digestAlgorithm.element]) =
      some [digestAlgorithm] := by
    decide +kernel
  have hcontent : SignedData.contentOf? (.sequence [dataKind.element]) = some (dataKind, none) := by
    decide +kernel
  have henclosed : SignedData.enclosed? (.around (Element.fieldTag 0) [s.certificate.element]) =
      some [.certificate s.certificate] := by
    have hone : (Element.around (Element.fieldTag 0) [s.certificate.element]).items?
        (Element.fieldTag 0) = some [s.certificate.element] :=
      Element.items?_around _ (List.forall_mem_singleton.2 hcertificate)
    have hformat : s.certificate.element.tag ≠ Element.fieldTag 3 := by
      exact (by decide : Asn1.tagSequence ≠ Element.fieldTag 3)
    simp only [SignedData.enclosed?, hone, Option.bind_eq_bind, Option.bind_some, List.mapM_cons,
      List.mapM_nil, EnclosedCertificate.ofElement?, if_neg hformat, hread, Option.map_some,
      Option.pure_def, Asn1.setOf?_singleton]
  have hsigners :
      SignedData.signers? (.around Asn1.tagSet [(s.info attributes signature).element]) =
        some [s.info attributes signature] := by
    have hone : (Element.around Asn1.tagSet [(s.info attributes signature).element]).items?
        Asn1.tagSet = some [(s.info attributes signature).element] :=
      Element.items?_around _ (List.forall_mem_singleton.2 hinfo)
    simp only [SignedData.signers?, hone, Option.bind_eq_bind, Option.bind_some, List.mapM_cons,
      List.mapM_nil, read_info hcertificate hread hattributes hinfo, Option.pure_def,
      Asn1.setOf?_singleton]
  have hfield := Element.takeField_around_zero [s.certificate.element]
    [.around Asn1.tagSet [(s.info attributes signature).element]]
  have hrevocations :
      Element.takeField 1 [.around Asn1.tagSet [(s.info attributes signature).element]] =
        (none, [.around Asn1.tagSet [(s.info attributes signature).element]]) :=
    Element.takeField_of_plain 1 [] rfl
  simp only [SignedData.ofElement?, hitems, messageItems, Option.bind_eq_bind, Option.bind_some,
    read_version, halgorithms, hcontent, hfield, hrevocations, Element.optional?, henclosed,
    hsigners, Option.map_some]
  rfl

/-! ### The block -/

section Block

variable {withAttributes : Bool} {content : Bytes}

/-- The attributes that are signed in place of a content, if there are any. -/
def attributes? (withAttributes : Bool) (content : Bytes) : Option (List MessageAttribute) :=
  if withAttributes then some (attributesFor content) else none

/-- The octets that are signed for a content. -/
def signedOctets (withAttributes : Bool) (content : Bytes) : Bytes :=
  if withAttributes then SignatureBlock.attributeOctets (attributesFor content) else content

theorem messageFor_eq (s : Signer) (withAttributes : Bool) (content : Bytes) :
    s.messageFor withAttributes content = s.message (attributes? withAttributes content)
      (s.key.sign (signedOctets withAttributes content)) := by
  cases withAttributes <;> rfl

/-- What is in a block that is not too long is not too long either. -/
theorem readable_block (hlength : (s.block withAttributes content).length ≤ Asn1.maxContent) :
    (Envelope.mk signedDataKind (s.messageFor withAttributes content).element).element.Readable ∧
      (Element.around (Element.fieldTag 0)
        [(s.messageFor withAttributes content).element]).Readable ∧
      (s.messageFor withAttributes content).element.Readable := by
  have hreadable :
      (Envelope.mk signedDataKind (s.messageFor withAttributes content).element).element.Readable :=
    ⟨rfl, Nat.le_of_lt (Nat.lt_of_lt_of_le (Element.length_content_lt _) hlength)⟩
  have hfield : (Element.around (Element.fieldTag 0)
      [(s.messageFor withAttributes content).element]).Readable :=
    hreadable.of_around (List.mem_cons_of_mem _ List.mem_cons_self)
      (by exact (by decide : Asn1.isTag (Element.fieldTag 0) = true))
  exact ⟨hreadable, hfield, hfield.of_around List.mem_cons_self rfl⟩

/-- The message in a block that is not too long is read back. -/
theorem message_block (name : String)
    (hread : Certificate.ofElement? s.certificate.element = some s.certificate)
    (hlength : (s.block withAttributes content).length ≤ Asn1.maxContent) :
    SignatureBlock.message name (s.block withAttributes content) =
      .ok (s.messageFor withAttributes content) := by
  have hkind : Oid.ofElement? signedDataKind.element = some signedDataKind := by
    decide
  have hattributes : ∀ as ∈ attributes? withAttributes content,
      MessageAttribute.setOf? (Element.fieldTag 0)
        (MessageAttribute.setElement (Element.fieldTag 0) as) = some as := by
    intro as has
    obtain ⟨-, has⟩ := Option.ite_none_right_eq_some.1 has
    rw [← Option.some.inj has]
    exact read_attributesFor content
  obtain ⟨hreadable, hfield, hmessage⟩ := readable_block hlength
  have hitems :
      (Envelope.mk signedDataKind (s.messageFor withAttributes content).element).element.items?
        Asn1.tagSequence = some [signedDataKind.element,
          .around (Element.fieldTag 0) [(s.messageFor withAttributes content).element]] := by
    refine Element.items?_sequence fun e he => ?_
    simp only [List.mem_cons, List.not_mem_nil, or_false] at he
    rcases he with rfl | rfl
    · exact hreadable.of_around List.mem_cons_self rfl
    · exact hfield
  have henvelope : Envelope.ofBytes? (s.block withAttributes content) =
      some ⟨signedDataKind, (s.messageFor withAttributes content).element⟩ := by
    simp only [Envelope.ofBytes?, block, Envelope.encode, Element.ofBytes?_encode hreadable,
      Option.bind_some, Envelope.ofElement?, hitems, Option.bind_eq_bind, hkind,
      Element.inField?_around hmessage]
  rw [messageFor_eq] at hmessage henvelope ⊢
  simp only [SignatureBlock.message, henvelope, if_true, read_message hread hattributes hmessage]

end Block

/-! ### The signature -/

/-- A signer whose certificate is read back from its encoding, whose public key verifies every
signature made with the signer's own key, and whose blocks are not too long for their encoding. -/
structure Honest (s : Signer) : Prop where
  read : Certificate.ofElement? s.certificate.element = some s.certificate
  fits : ∀ content, (s.block false content).length ≤ Asn1.maxContent
  verifies : ∀ (block : String) (content : Bytes),
    SignatureBlock.keyVerifies block s.certificate.body.publicKey SigningKey.digestAlgorithm
      (SigningKey.digestAlgorithm.digest content) (s.key.sign content) = .ok true

/-- The certificate of an honest signer is what its encoding is read as. -/
theorem Honest.ofBytes?_encode {s : Signer} (h : s.Honest) :
    Certificate.ofBytes? s.certificate.encode = some s.certificate := by
  obtain ⟨-, -, hmessage⟩ := readable_block (h.fits [])
  rw [Certificate.ofBytes?, Certificate.encode, Element.ofBytes?_encode (readable_certificate hmessage),
    Option.bind_some, h.read]

/-- The chain of a signer, whose certificate comes without others. -/
def chain (s : Signer) : Chain :=
  ⟨s.certificate, []⟩

/-- In a pool of one certificate its chain ends with itself. -/
theorem climb_alone (c : Certificate) : Chain.climb [c] c = ⟨c, []⟩ := by
  have hused : Chain.continues c [c] c = false := by
    simp [Chain.continues]
  simp only [Chain.climb, Chain.issuersAbove, List.length_singleton, List.find?_cons, hused,
    List.find?_nil, ite_self]

/-- The signed octets are those that a signature with these attributes covers. -/
theorem coveredOctets_attributes? (ctx : BlockContext) (withAttributes : Bool) :
    SignatureBlock.coveredOctets ctx SigningKey.digestAlgorithm
      (attributes? withAttributes ctx.content) = .ok (signedOctets withAttributes ctx.content) := by
  have hstated : SignatureBlock.statedDigest? (attributesFor ctx.content) =
      some (SigningKey.digestAlgorithm.digest ctx.content) := rfl
  cases withAttributes with
  | false => rfl
  | true => simp only [attributes?, signedOctets, SignatureBlock.coveredOctets, hstated, if_true]

/-- A block stands for the signer's certificate if this can be read and verifies the signature. -/
theorem chains_block_of_keyVerifies {ctx : BlockContext} {withAttributes : Bool}
    (hread : Certificate.ofElement? s.certificate.element = some s.certificate)
    (hlength : (s.block withAttributes ctx.content).length ≤ Asn1.maxContent)
    (hverifies : SignatureBlock.keyVerifies ctx.block s.certificate.body.publicKey
      SigningKey.digestAlgorithm
      (SigningKey.digestAlgorithm.digest (signedOctets withAttributes ctx.content))
      (s.key.sign (signedOctets withAttributes ctx.content)) = .ok true) :
    SignatureBlock.chains ctx (s.block withAttributes ctx.content) = .ok [s.chain] := by
  have hisOf : (s.info (attributes? withAttributes ctx.content)
      (s.key.sign (signedOctets withAttributes ctx.content))).id.isOf s.certificate = true := by
    simp [info, SignerId.isOf]
  have halgorithm : Digest.Algorithm.ofOid? digestAlgorithm.oid =
      some SigningKey.digestAlgorithm := by
    decide
  have hcheck : SignatureBlock.checkSignature ctx (s.info (attributes? withAttributes ctx.content)
      (s.key.sign (signedOctets withAttributes ctx.content))) s.certificate = .ok () := by
    simp only [SignatureBlock.checkSignature, info, halgorithm, coveredOctets_attributes?]
    simp only [Steps.ok_bind, hverifies, if_true]
  have hsigner : SignatureBlock.signerChain ctx [s.certificate]
      (s.info (attributes? withAttributes ctx.content)
        (s.key.sign (signedOctets withAttributes ctx.content))) = .ok s.chain := by
    simp only [SignatureBlock.signerChain, List.find?_cons, hisOf, hcheck, Steps.ok_bind,
      climb_alone, chain]
  rw [SignatureBlock.chains, message_block ctx.block hread hlength, Steps.ok_bind,
    SignatureBlock.messageChains, messageFor_eq]
  have hmessage : (s.message (attributes? withAttributes ctx.content)
      (s.key.sign (signedOctets withAttributes ctx.content))).signers.mapM
        (SignatureBlock.signerChain ctx (s.message (attributes? withAttributes ctx.content)
          (s.key.sign (signedOctets withAttributes ctx.content))).certificates) =
        .ok [s.chain] := by
    change [s.info (attributes? withAttributes ctx.content)
        (s.key.sign (signedOctets withAttributes ctx.content))].mapM
      (SignatureBlock.signerChain ctx [s.certificate]) = .ok [s.chain]
    simp only [List.mapM_cons, List.mapM_nil, hsigner, Steps.ok_bind]
    rfl
  rw [hmessage]
  rfl

/-- A block that an honest signer made for a content stands for the signer's certificate. -/
theorem chains_block {ctx : BlockContext} (h : s.Honest) :
    SignatureBlock.chains ctx (s.block false ctx.content) = .ok [s.chain] :=
  chains_block_of_keyVerifies h.read (h.fits ctx.content) (h.verifies ctx.block ctx.content)

end Signer

end JarSigners
