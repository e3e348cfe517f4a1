import JarSigners.Proofs.Asn1.Exact
import JarSigners.Proofs.Signing.Block

/-!
# Certificates and their encodings

A certificate is determined by its encoding: every part stands in an element of its own, optional
parts can be told from each other by their tags, and an element shows where it ends. So certificates
written one behind the other can be told apart, with nothing between them and no count of them
(`Certificate.encodings_inj`). This holds of elements that are not too long, since a length has as
many octets as the number of them fits in one.
-/

set_option autoImplicit false

namespace JarSigners

open Asn1 (Element Oid Integer BitString)

/-! ### Writing tells apart -/

theorem Asn1.Oid.element_inj {a b : Oid} (h : a.element = b.element) : a = b := by
  cases a
  cases b
  simpa [Oid.element] using h

theorem Asn1.Integer.element_inj {a b : Integer} (h : a.element = b.element) : a = b := by
  cases a
  cases b
  simpa [Integer.element] using h

theorem Asn1.BitString.element_inj {tag : UInt8} {a b : BitString}
    (h : a.element tag = b.element tag) : a = b := by
  cases a
  cases b
  simpa [BitString.element, BitString.content] using h

theorem Asn1.Integer.toNatBE_ofNat (n : Nat) : Bytes.toNatBE (Integer.ofNat n).content = n := by
  have hnumber := Bytes.toNatBE_ofNat n
  unfold Integer.ofNat
  cases hoctets : Bytes.ofNat n with
  | nil =>
    rw [hoctets] at hnumber
    simpa [Bytes.toNatBE] using hnumber
  | cons first rest =>
    rw [hoctets] at hnumber
    dsimp only
    split
    · exact hnumber
    · simpa [Bytes.toNatBE] using hnumber

/-- Numbers are determined by their shortest form. -/
theorem Asn1.Integer.ofNat_inj {m n : Nat} (h : Integer.ofNat m = Integer.ofNat n) : m = n := by
  rw [← toNatBE_ofNat m, h, toNatBE_ofNat]

/-- A part that may be missing is determined by what it adds to a list. -/
theorem Asn1.toList_inj {α : Type} {a b : Option α} (h : a.toList = b.toList) : a = b := by
  cases a <;> cases b <;> simp_all

theorem AlgorithmIdentifier.element_inj {a b : AlgorithmIdentifier} (hshort : a.element.Short)
    (h : a.element = b.element) : a = b := by
  obtain ⟨hoid, hparameters⟩ := List.cons.inj (Element.around_inj hshort h)
  cases a
  cases b
  simp only [mk.injEq]
  exact ⟨Oid.element_inj hoid, Asn1.toList_inj hparameters⟩

theorem PublicKeyInfo.element_inj {a b : PublicKeyInfo} (hshort : a.element.Short)
    (h : a.element = b.element) : a = b := by
  have hitems := Element.around_inj hshort h
  simp only [List.cons.injEq, and_true] at hitems
  cases a
  cases b
  simp only [mk.injEq]
  exact ⟨AlgorithmIdentifier.element_inj (hshort.of_around List.mem_cons_self) hitems.1,
    BitString.element_inj hitems.2⟩

theorem NameAttribute.element_inj {a b : NameAttribute} (hshort : a.element.Short)
    (h : a.element = b.element) : a = b := by
  have hitems := Element.around_inj hshort h
  simp only [List.cons.injEq, and_true] at hitems
  cases a
  cases b
  simp only [mk.injEq]
  exact ⟨Oid.element_inj hitems.1, hitems.2⟩

theorem DistinguishedName.partElement_inj {part other : List NameAttribute}
    (hshort : (partElement part).Short) (h : partElement part = partElement other) :
    part = other :=
  Element.map_inj
    (fun _ ha _ => NameAttribute.element_inj (hshort.of_around (List.mem_map_of_mem ha)))
    (Element.around_inj hshort h)

theorem DistinguishedName.element_inj {a b : DistinguishedName} (hshort : a.element.Short)
    (h : a.element = b.element) : a = b := by
  have hparts : a.parts = b.parts :=
    Element.map_inj
      (fun _ hpart _ => partElement_inj (hshort.of_around (List.mem_map_of_mem hpart)))
      (Element.around_inj hshort h)
  cases a
  cases b
  simpa using hparts

theorem Extension.element_inj {a b : Extension} (hshort : a.element.Short)
    (h : a.element = b.element) : a = b := by
  have hitems := Element.around_inj hshort h
  rcases a with ⟨kind, _ | _, value⟩ <;> rcases b with ⟨other, _ | _, octets⟩ <;>
    simp only [Bool.false_eq_true, if_false, if_true, List.cons_append, List.nil_append,
      List.cons.injEq, Element.mk.injEq, true_and, and_true, reduceCtorEq, and_false] at hitems
  · rw [Oid.element_inj hitems.1, hitems.2]
  · rw [Oid.element_inj hitems.1, hitems.2]

theorem Extension.listElement_inj {xs ys : List Extension} (hshort : (listElement xs).Short)
    (h : listElement xs = listElement ys) : xs = ys :=
  Element.map_inj
    (fun _ hx _ => Extension.element_inj (hshort.of_around (List.mem_map_of_mem hx)))
    (Element.around_inj hshort h)

namespace CertificateBody

theorem versionField_inj {a b : CertificateBody} (hshort : ∀ e ∈ a.versionField, e.Short)
    (h : a.versionField = b.versionField) : a.version = b.version := by
  by_cases ha : a.version = 0 <;> by_cases hb : b.version = 0
  · rw [ha, hb]
  · simp [versionField, ha, hb] at h
  · simp [versionField, ha, hb] at h
  · simp only [versionField, if_neg ha, if_neg hb, List.forall_mem_singleton, List.cons.injEq,
      and_true] at hshort h
    have hnumber := Element.around_inj hshort h
    rw [List.cons.injEq] at hnumber
    exact Integer.ofNat_inj (Integer.element_inj hnumber.1)

theorem filter_trailer_issuerId (b : CertificateBody) :
    (b.trailer.filter fun e => e.tag = Element.plainFieldTag 1) =
      b.issuerId.toList.map (BitString.element (Element.plainFieldTag 1)) := by
  cases hi : b.issuerId <;> cases hs : b.subjectId <;> cases hx : b.extensions <;>
    simp only [trailer, hi, hs, hx] <;> rfl

theorem filter_trailer_subjectId (b : CertificateBody) :
    (b.trailer.filter fun e => e.tag = Element.plainFieldTag 2) =
      b.subjectId.toList.map (BitString.element (Element.plainFieldTag 2)) := by
  cases hi : b.issuerId <;> cases hs : b.subjectId <;> cases hx : b.extensions <;>
    simp only [trailer, hi, hs, hx] <;> rfl

theorem filter_trailer_extensions (b : CertificateBody) :
    (b.trailer.filter fun e => e.tag = Element.fieldTag 3) =
      b.extensions.toList.map fun xs =>
        .around (Element.fieldTag 3) [Extension.listElement xs] := by
  cases hi : b.issuerId <;> cases hs : b.subjectId <;> cases hx : b.extensions <;>
    simp only [trailer, hi, hs, hx] <;> rfl

/-- The optional fields have tags of their own. -/
theorem trailer_inj {a b : CertificateBody} (hshort : ∀ e ∈ a.trailer, e.Short)
    (h : a.trailer = b.trailer) :
    a.issuerId = b.issuerId ∧ a.subjectId = b.subjectId ∧ a.extensions = b.extensions := by
  have hissuer := filter_trailer_issuerId a
  have hsubject := filter_trailer_subjectId a
  have hextensions := filter_trailer_extensions a
  rw [h, filter_trailer_issuerId b] at hissuer
  rw [h, filter_trailer_subjectId b] at hsubject
  rw [h, filter_trailer_extensions b] at hextensions
  refine ⟨Asn1.toList_inj (Element.map_inj (fun _ _ _ => BitString.element_inj) hissuer.symm),
    Asn1.toList_inj (Element.map_inj (fun _ _ _ => BitString.element_inj) hsubject.symm),
    Asn1.toList_inj (Element.map_inj (fun xs hxs ys hsame => ?_) hextensions.symm)⟩
  have hfield : (Element.around (Element.fieldTag 3) [Extension.listElement xs]).Short :=
    hshort _ (List.mem_append_right _ (List.mem_map_of_mem hxs))
  have hlist := Element.around_inj hfield hsame
  rw [List.cons.injEq] at hlist
  exact Extension.listElement_inj (hfield.of_around List.mem_cons_self) hlist.1

theorem element_inj {a b : CertificateBody} (hshort : a.element.Short)
    (h : a.element = b.element) : a = b := by
  rw [element_eq] at hshort
  rw [element_eq, element_eq] at h
  have hmem : ∀ e ∈ a.versionField ++ (a.required ++ a.trailer), e.Short :=
    fun e => hshort.of_around
  have hitems := Element.around_inj hshort h
  have hrest := congrArg (fun items => (Element.takeField 0 items).2) hitems
  simp only [takeField_versionField] at hrest
  rw [hrest] at hitems
  have hversion := versionField_inj (fun e he => hmem e (List.mem_append_left _ he))
    (List.append_cancel_right hitems)
  obtain ⟨hrequired, htrailer⟩ := List.append_inj hrest rfl
  obtain ⟨hissuerId, hsubjectId, hextensions⟩ := trailer_inj
    (fun e he => hmem e (List.mem_append_right _ (List.mem_append_right _ he))) htrailer
  have hpart : ∀ e ∈ a.required, e.Short :=
    fun e he => hmem e (List.mem_append_right _ (List.mem_append_left _ he))
  simp only [required, List.forall_mem_cons] at hpart
  obtain ⟨-, halgorithm, hissuer, hvalidity, hsubject, hkey, -⟩ := hpart
  simp only [required, List.cons.injEq] at hrequired
  obtain ⟨hserial', halgorithm', hissuer', hvalidity', hsubject', hkey', -⟩ := hrequired
  have htimes := Element.around_inj hvalidity hvalidity'
  simp only [List.cons.injEq, and_true] at htimes
  cases a
  cases b
  simp only [mk.injEq]
  exact ⟨hversion, Integer.element_inj hserial',
    AlgorithmIdentifier.element_inj halgorithm halgorithm',
    DistinguishedName.element_inj hissuer hissuer', htimes.1, htimes.2,
    DistinguishedName.element_inj hsubject hsubject', PublicKeyInfo.element_inj hkey hkey',
    hissuerId, hsubjectId, hextensions⟩

end CertificateBody

namespace Certificate

variable {c d : Certificate}

theorem element_inj (hshort : c.element.Short) (h : c.element = d.element) : c = d := by
  have hitems := Element.around_inj hshort h
  simp only [List.cons.injEq, and_true] at hitems
  obtain ⟨hbody, halgorithm, hsignature⟩ := hitems
  cases c
  cases d
  simp only [mk.injEq]
  exact ⟨CertificateBody.element_inj (hshort.of_around List.mem_cons_self) hbody,
    AlgorithmIdentifier.element_inj
      (hshort.of_around (List.mem_cons_of_mem _ List.mem_cons_self)) halgorithm,
    BitString.element_inj hsignature⟩

/-- Certificates written one behind the other can be told apart. -/
theorem encodings_inj {cs ds : List Certificate} (hcs : ∀ c ∈ cs, c.element.Short)
    (hds : ∀ d ∈ ds, d.element.Short) (h : cs.flatMap encode = ds.flatMap encode) : cs = ds := by
  have hwritten : ∀ cs : List Certificate,
      (cs.map element).flatMap Element.encode = cs.flatMap encode := by
    intro cs
    rw [List.flatMap_map]
    rfl
  rw [← hwritten cs, ← hwritten ds] at h
  refine Element.map_inj (fun c hc d => element_inj (hcs c hc)) (Element.encodings_inj ?_ ?_ h)
  · exact List.forall_mem_map.2 hcs
  · exact List.forall_mem_map.2 hds

end Certificate

end JarSigners
