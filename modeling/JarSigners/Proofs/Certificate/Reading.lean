import JarSigners.Proofs.Asn1.Exact
import JarSigners.Proofs.Signing.Block

/-!
# What certificates are read from

Most parts of a certificate are written exactly as they were read. What is written otherwise is
shorter or as long: a version and marks that are the default and fields that mean nothing are left
out, the members of a set change places, and nothing is added (`Certificate.length_element_le`). So
a certificate that was decoded is written in an element that is not too long
(`Certificate.Decoded.short`).
-/

set_option autoImplicit false

namespace JarSigners

open Asn1 (Element Oid Integer BitString)

variable {e : Element} {items : List Element}

/-! ### Parts that are written as they were read -/

theorem Asn1.Oid.element_of_ofElement? {oid : Oid} (h : Oid.ofElement? e = some oid) :
    oid.element = e := by
  obtain ⟨content, hcontent, hoid⟩ := Option.bind_eq_some_iff.1 h
  rw [Element.content?_eq_some_iff] at hcontent
  unfold Oid.ofContent? at hoid
  split at hoid
  next =>
    cases hoid
    exact hcontent.symm
  next => cases hoid

theorem Asn1.BitString.element_of_ofElement? {tag : UInt8} {b : BitString}
    (h : BitString.ofElement? tag e = some b) : b.element tag = e := by
  obtain ⟨content, hcontent, hb⟩ := Option.bind_eq_some_iff.1 h
  rw [Element.content?_eq_some_iff] at hcontent
  cases content with
  | nil => cases hb
  | cons unused octets =>
    simp only [BitString.ofContent?] at hb
    split at hb
    next =>
      cases hb
      exact hcontent.symm
    next => cases hb

theorem Asn1.Integer.element_of_ofElement? {i : Integer} (h : Integer.ofElement? e = some i) :
    i.element = e := by
  unfold Integer.ofElement? at h
  split at h
  next content hcontent =>
    rw [Element.content?_eq_some_iff] at hcontent
    split at h
    next =>
      cases h
      exact hcontent.symm
    next => cases h
  next => cases h

theorem AlgorithmIdentifier.element_of_ofElement? {a : AlgorithmIdentifier}
    (h : ofElement? e = some a) : a.element = e := by
  simp only [ofElement?, Option.bind_eq_bind, Option.bind_eq_some_iff] at h
  obtain ⟨items, hitems, h⟩ := h
  obtain ⟨rfl, -⟩ := Element.eq_around_of_items? hitems
  split at h
  next oid =>
    obtain ⟨found, hoid, h⟩ := Option.bind_eq_some_iff.1 h
    cases h
    rw [element, Oid.element_of_ofElement? hoid]
    rfl
  next oid parameters =>
    obtain ⟨found, hoid, h⟩ := Option.bind_eq_some_iff.1 h
    cases h
    rw [element, Oid.element_of_ofElement? hoid]
    rfl
  next => cases h

theorem PublicKeyInfo.element_of_ofElement? {k : PublicKeyInfo} (h : ofElement? e = some k) :
    k.element = e := by
  simp only [ofElement?, Option.bind_eq_bind, Option.bind_eq_some_iff] at h
  obtain ⟨items, hitems, h⟩ := h
  obtain ⟨rfl, -⟩ := Element.eq_around_of_items? hitems
  split at h
  next algorithm key =>
    simp only [Option.bind_eq_some_iff] at h
    obtain ⟨a, halgorithm, octets, hkey, h⟩ := h
    cases h
    rw [element, AlgorithmIdentifier.element_of_ofElement? halgorithm,
      BitString.element_of_ofElement? hkey]
    rfl
  next => cases h

theorem NameAttribute.element_of_ofElement? {a : NameAttribute} (h : ofElement? e = some a) :
    a.element = e := by
  simp only [ofElement?, Option.bind_eq_bind, Option.bind_eq_some_iff] at h
  obtain ⟨items, hitems, h⟩ := h
  obtain ⟨rfl, -⟩ := Element.eq_around_of_items? hitems
  split at h
  next kind value =>
    obtain ⟨found, hkind, h⟩ := Option.bind_eq_some_iff.1 h
    cases h
    rw [element, Oid.element_of_ofElement? hkind]
    rfl
  next => cases h

/-! ### Sets and lists -/

/-- Putting a member in its place adds it to those that are there. -/
theorem Asn1.placeMember?_perm {α : Type} {rank : α → Asn1.Rank} {x : α} {placed out : List α}
    (h : Asn1.placeMember? rank x placed = some out) : out.Perm (x :: placed) := by
  induction placed generalizing out with
  | nil =>
    cases h
    exact List.Perm.refl _
  | cons y rest ih =>
    simp only [Asn1.placeMember?] at h
    split at h
    next =>
      cases h
      exact List.Perm.refl _
    next => cases h
    next =>
      obtain ⟨more, hmore, rfl⟩ := Option.map_eq_some_iff.1 h
      exact ((ih hmore).cons y).trans (List.Perm.swap x y rest)

/-- A set has the members that were read, in an order of their own. -/
theorem Asn1.setOf?_perm {α : Type} {rank : α → Asn1.Rank} {xs sorted : List α}
    (h : Asn1.setOf? rank xs = some sorted) : sorted.Perm xs := by
  have hplaced : ∀ (xs placed out : List α),
      xs.foldlM (fun placed x => Asn1.placeMember? rank x placed) placed = some out →
        out.Perm (xs ++ placed) := by
    intro xs
    induction xs with
    | nil =>
      intro placed out hout
      cases hout
      exact List.Perm.refl _
    | cons x xs ih =>
      intro placed out hout
      simp only [List.foldlM_cons, Option.bind_eq_bind, Option.bind_eq_some_iff] at hout
      obtain ⟨next, hnext, hout⟩ := hout
      refine (ih next out hout).trans ?_
      exact ((Asn1.placeMember?_perm hnext).append_left xs).trans List.perm_middle
  obtain ⟨out, hout, rfl⟩ := Option.map_eq_some_iff.1 h
  have hperm := hplaced xs [] out hout
  rw [List.append_nil] at hperm
  exact (List.reverse_perm out).trans hperm

/-- Members that are written no longer than they were read take no more room together. -/
theorem Asn1.span_map_le {α : Type} {read : Element → Option α} {write : α → Element} {xs : List α}
    (hle : ∀ e x, read e = some x → (write x).encode.length ≤ e.encode.length)
    (h : items.mapM read = some xs) : Element.span (xs.map write) ≤ Element.span items := by
  induction items generalizing xs with
  | nil =>
    cases h
    exact Nat.le_refl _
  | cons e items ih =>
    simp only [List.mapM_cons, Option.bind_eq_bind, Option.bind_eq_some_iff, Option.pure_def] at h
    obtain ⟨x, hx, rest, hrest, h⟩ := h
    cases h
    rw [List.map_cons, Element.span_cons, Element.span_cons]
    exact Nat.add_le_add (hle e x hx) (ih hrest)

theorem DistinguishedName.length_partElement_le {part : List NameAttribute}
    (h : part? e = some part) : (partElement part).encode.length ≤ e.encode.length := by
  simp only [part?, Option.bind_eq_bind, Option.bind_eq_some_iff] at h
  obtain ⟨items, hitems, attributes, hattributes, hset⟩ := h
  obtain ⟨rfl, -⟩ := Element.eq_around_of_items? hitems
  apply Element.length_encode_around_le
  rw [Element.span_perm ((Asn1.setOf?_perm hset).map NameAttribute.element)]
  exact Asn1.span_map_le
    (fun _ _ hread => by rw [NameAttribute.element_of_ofElement? hread]) hattributes

theorem DistinguishedName.length_element_le {name : DistinguishedName}
    (h : ofElement? e = some name) : name.element.encode.length ≤ e.encode.length := by
  simp only [ofElement?, Option.bind_eq_bind, Option.bind_eq_some_iff] at h
  obtain ⟨items, hitems, parts, hparts, h⟩ := h
  obtain ⟨rfl, -⟩ := Element.eq_around_of_items? hitems
  cases h
  exact Element.length_encode_around_le
    (Asn1.span_map_le (fun _ _ => length_partElement_le) hparts)

namespace Extension

/-- The mark of an extension that matters has one form. -/
theorem eq_mark_of_truth? (h : truth? e = some true) : e = ⟨Asn1.tagBoolean, [0xFF]⟩ := by
  unfold truth? at h
  split at h
  next hcontent => exact Element.content?_eq_some_iff.1 hcontent
  next => cases h
  next => cases h

/-- The mark of an extension that does not matter is left out. -/
theorem length_element_le {x : Extension} (h : ofElement? e = some x) :
    x.element.encode.length ≤ e.encode.length := by
  simp only [ofElement?, Option.bind_eq_bind, Option.bind_eq_some_iff] at h
  obtain ⟨items, hitems, h⟩ := h
  obtain ⟨rfl, -⟩ := Element.eq_around_of_items? hitems
  apply Element.length_encode_around_le
  apply Element.span_le_of_sublist
  split at h
  next kind value =>
    simp only [Option.bind_eq_some_iff] at h
    obtain ⟨found, hkind, octets, hoctets, h⟩ := h
    cases h
    rw [Element.content?_eq_some_iff] at hoctets
    simp only [Bool.false_eq_true, if_false, Oid.element_of_ofElement? hkind, ← hoctets]
    exact List.Sublist.refl _
  next kind critical value =>
    simp only [Option.bind_eq_some_iff] at h
    obtain ⟨found, hkind, mark, hmark, octets, hoctets, h⟩ := h
    cases h
    rw [Element.content?_eq_some_iff] at hoctets
    simp only [Oid.element_of_ofElement? hkind, ← hoctets]
    cases mark with
    | false => simp
    | true => simp [eq_mark_of_truth? hmark]
  next => cases h

theorem length_listElement_le {xs : List Extension} (h : listOf? e = some xs) :
    (listElement xs).encode.length ≤ e.encode.length := by
  simp only [listOf?, Option.bind_eq_bind, Option.bind_eq_some_iff] at h
  obtain ⟨items, hitems, h⟩ := h
  obtain ⟨rfl, -⟩ := Element.eq_around_of_items? hitems
  exact Element.length_encode_around_le (Asn1.span_map_le (fun _ _ => length_element_le) h)

end Extension

/-! ### Numbered fields -/

/-- The field that is taken off and what follows it stand among the elements. -/
theorem Asn1.Element.takeField_sublist (number : UInt8) (items : List Element) :
    ((takeField number items).1.toList ++ (takeField number items).2).Sublist items := by
  refine List.Sublist.trans ?_ (List.dropWhile_sublist fun e => e.isField && e.fieldNumber < number)
  unfold takeField
  split
  next hnone =>
    rw [hnone]
    exact List.Sublist.refl _
  next e rest hfound =>
    rw [hfound]
    split <;> exact List.Sublist.refl _

theorem Asn1.Element.eq_around_of_inField? {number : UInt8} {inner : Element}
    (h : e.inField? number = some inner) : e = around (fieldTag number) [inner] := by
  unfold inField? at h
  split at h
  next found hitems =>
    cases h
    exact (eq_around_of_items? hitems).1
  next => cases h

/-- A part that may be missing takes no more room than it did if one that is there does not. -/
theorem Asn1.Element.span_optional_le {α : Type} {read : Element → Option α} {write : α → Element}
    {field : Option Element} {part : Option α}
    (hle : ∀ e x, read e = some x → (write x).encode.length ≤ e.encode.length)
    (h : optional? read field = some part) :
    span (part.toList.map write) ≤ span field.toList := by
  cases field with
  | none =>
    cases h
    exact Nat.le_refl _
  | some e =>
    obtain ⟨x, hx, rfl⟩ := Option.map_eq_some_iff.1 h
    simpa [span] using hle e x hx

namespace CertificateBody

variable {b : CertificateBody}

/-- A number up to two is written in one octet, and what it was read from has one. -/
theorem length_ofNat_le_of_versionUpTo? {n : Nat} (h : Asn1.versionUpTo? 2 e = some n) :
    (Integer.ofNat n).element.encode.length ≤ e.encode.length := by
  simp only [Asn1.versionUpTo?, Option.bind_eq_bind, Option.bind_eq_some_iff] at h
  obtain ⟨i, hi, number, hnumber, h⟩ := h
  split at h
  next hbound =>
    cases h
    have hone : ∀ n ≤ 2, (Integer.ofNat n).content.length = 1 := by decide
    have hsome : 1 ≤ i.content.length := by
      cases hcontent : i.content with
      | nil => simp [Integer.toNat?, hcontent] at hnumber
      | cons => simp
    rw [← Integer.element_of_ofElement? hi, Element.length_encode, Element.length_encode]
    exact Element.width_strictMono.monotone (Nat.le_trans (hone _ hbound).le hsome)
  next => cases h

/-- The first version is left out. -/
theorem span_versionField_le {field : Option Element} (h : version? field = some b.version) :
    Element.span b.versionField ≤ Element.span field.toList := by
  unfold versionField
  split
  next => exact Nat.zero_le _
  next hversion =>
    cases field with
    | none => exact absurd (Option.some.inj h).symm hversion
    | some e =>
      obtain ⟨inner, hinner, hnumber⟩ := Option.bind_eq_some_iff.1 h
      rw [Element.eq_around_of_inField? hinner, Option.toList_some, Element.span_cons,
        Element.span_cons]
      exact Nat.add_le_add_right
        (Element.length_encode_around_cons_le (length_ofNat_le_of_versionUpTo? hnumber)) _

theorem length_extensionsField_le {xs : List Extension}
    (h : (e.inField? 3).bind Extension.listOf? = some xs) :
    (Element.around (Element.fieldTag 3) [Extension.listElement xs]).encode.length ≤
      e.encode.length := by
  obtain ⟨inner, hinner, hxs⟩ := Option.bind_eq_some_iff.1 h
  rw [Element.eq_around_of_inField? hinner]
  exact Element.length_encode_around_cons_le (Extension.length_listElement_le hxs)

/-- Fields that mean nothing are left out. -/
theorem span_trailer_le (h : trailer? items = some (b.issuerId, b.subjectId, b.extensions)) :
    Element.span b.trailer ≤ Element.span items := by
  simp only [trailer?, Option.bind_eq_bind, Option.bind_eq_some_iff] at h
  obtain ⟨issuerId, hissuer, subjectId, hsubject, extensions, hextensions, h⟩ := h
  split at h
  next =>
    simp only [Option.some.injEq, Prod.mk.injEq] at h
    obtain ⟨rfl, rfl, rfl⟩ := h
    have hfirst := Element.span_le_of_sublist (Element.takeField_sublist 1 items)
    have hsecond := Element.span_le_of_sublist
      (Element.takeField_sublist 2 (Element.takeField 1 items).2)
    have hthird := Element.span_le_of_sublist
      (Element.takeField_sublist 3 (Element.takeField 2 (Element.takeField 1 items).2).2)
    have hbits : ∀ tag e (x : BitString), BitString.ofElement? tag e = some x →
        (x.element tag).encode.length ≤ e.encode.length := by
      intro tag e x hx
      rw [BitString.element_of_ofElement? hx]
    have hissuerId := Element.span_optional_le (hbits _) hissuer
    have hsubjectId := Element.span_optional_le (hbits _) hsubject
    have hlist := Element.span_optional_le (fun _ _ => length_extensionsField_le) hextensions
    simp only [trailer, Element.span_append] at *
    omega
  next => cases h

/-- The parts that a body was read from. -/
theorem parts_of_ofElement? (h : ofElement? e = some b) :
    ∃ items serial algorithm issuer validity subject key rest,
      e = .sequence items ∧
      (Element.takeField 0 items).2 =
        serial :: algorithm :: issuer :: validity :: subject :: key :: rest ∧
      version? (Element.takeField 0 items).1 = some b.version ∧
      serial? serial = some b.serial ∧
      AlgorithmIdentifier.ofElement? algorithm = some b.issuerAlgorithm ∧
      DistinguishedName.ofElement? issuer = some b.issuer ∧
      validity? validity = some (b.notBefore, b.notAfter) ∧
      DistinguishedName.ofElement? subject = some b.subject ∧
      PublicKeyInfo.ofElement? key = some b.publicKey ∧
      trailer? rest = some (b.issuerId, b.subjectId, b.extensions) := by
  simp only [ofElement?, Option.bind_eq_bind, Option.bind_eq_some_iff] at h
  obtain ⟨items, hitems, h⟩ := h
  split at h
  next serial algorithm issuer validity subject key rest hrest =>
    simp only [Option.bind_eq_some_iff] at h
    obtain ⟨version, hversion, number, hserial, a, halgorithm, i, hissuer, ⟨from', until'⟩,
      hvalidity, s, hsubject, k, hkey, ⟨issuerId, subjectId, extensions⟩, htrailer, h⟩ := h
    cases h
    exact ⟨items, serial, algorithm, issuer, validity, subject, key, rest,
      (Element.eq_around_of_items? hitems).1, hrest, hversion, hserial, halgorithm, hissuer,
      hvalidity, hsubject, hkey, htrailer⟩
  next => cases h

theorem element_of_serial? {serial : Integer} (h : serial? e = some serial) :
    serial.element = e := by
  simp only [serial?, Option.bind_eq_bind, Option.bind_eq_some_iff] at h
  obtain ⟨found, hfound, h⟩ := h
  split at h
  next =>
    cases h
    exact Integer.element_of_ofElement? hfound
  next => cases h

theorem element_of_validity? {notBefore notAfter : Element}
    (h : validity? e = some (notBefore, notAfter)) : .sequence [notBefore, notAfter] = e := by
  simp only [validity?, Option.bind_eq_bind, Option.bind_eq_some_iff] at h
  obtain ⟨items, hitems, h⟩ := h
  obtain ⟨rfl, -⟩ := Element.eq_around_of_items? hitems
  split at h
  next =>
    split at h
    next =>
      cases h
      rfl
    next => cases h
  next => cases h

theorem length_element_le (h : ofElement? e = some b) :
    b.element.encode.length ≤ e.encode.length := by
  obtain ⟨items, serial, algorithm, issuer, validity, subject, key, rest, rfl, hrest, hversion,
    hserial, halgorithm, hissuer, hvalidity, hsubject, hkey, htrailer⟩ := parts_of_ofElement? h
  have hitems := Element.span_le_of_sublist (Element.takeField_sublist 0 items)
  have hfield := span_versionField_le hversion
  have hfields := span_trailer_le htrailer
  have hissuerLength := DistinguishedName.length_element_le hissuer
  have hsubjectLength := DistinguishedName.length_element_le hsubject
  rw [hrest] at hitems
  rw [element_eq]
  apply Element.length_encode_around_le
  simp only [required, element_of_serial? hserial,
    AlgorithmIdentifier.element_of_ofElement? halgorithm, element_of_validity? hvalidity,
    PublicKeyInfo.element_of_ofElement? hkey, Element.span_append, Element.span_cons,
    Element.span_nil] at *
  omega

end CertificateBody

namespace Certificate

variable {c : Certificate}

/-- The parts that a certificate was read from. -/
theorem parts_of_ofElement? (h : ofElement? e = some c) :
    ∃ body, e = .sequence [body, c.algorithm.element, c.signature.element Asn1.tagBitString] ∧
      CertificateBody.ofElement? body = some c.body := by
  simp only [ofElement?, Option.bind_eq_bind, Option.bind_eq_some_iff] at h
  obtain ⟨items, hitems, h⟩ := h
  obtain ⟨rfl, -⟩ := Element.eq_around_of_items? hitems
  split at h
  next body algorithm signature =>
    simp only [Option.bind_eq_some_iff] at h
    obtain ⟨b, hbody, a, halgorithm, s, hsignature, h⟩ := h
    cases h
    refine ⟨body, ?_, hbody⟩
    simp only [AlgorithmIdentifier.element_of_ofElement? halgorithm,
      BitString.element_of_ofElement? hsignature]
    rfl
  next => cases h

theorem length_element_le (h : ofElement? e = some c) :
    c.element.encode.length ≤ e.encode.length := by
  obtain ⟨body, rfl, hbody⟩ := parts_of_ofElement? h
  exact Element.length_encode_around_cons_le (CertificateBody.length_element_le hbody)

/-- A certificate that some octets are read as. -/
def Decoded (c : Certificate) : Prop :=
  ∃ bytes, ofBytes? bytes = some c

/-- A certificate that was decoded is written in an element that is not too long. -/
theorem Decoded.short (h : c.Decoded) : c.element.Short := by
  obtain ⟨bytes, h⟩ := h
  obtain ⟨e, he, hc⟩ := Option.bind_eq_some_iff.1 h
  have hle := length_element_le hc
  rw [Element.length_encode, Element.length_encode, Element.width_strictMono.le_iff_le] at hle
  exact hle.trans (Element.encode_of_ofBytes? he).2.content

end Certificate

end JarSigners
