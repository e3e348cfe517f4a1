import JarSigners.Asn1.Element
import JarSigners.Proofs.Bytes
import Mathlib.Order.Monotone.Basic

/-!
# Elements are read back

An element shows where it ends, so one that has a tag and is not too long is read back from its
encoding, whatever follows it; and so are the elements inside another.
-/

set_option autoImplicit false

namespace JarSigners.Asn1

/-! ### Lengths -/

/-- A length up to the greatest one takes four octets at most behind the one that counts them. -/
theorem length_ofNat_le_four {n : Nat} (h : n ≤ maxContent) : (Bytes.ofNat n).length ≤ 4 :=
  Bytes.length_ofNat_le (by unfold maxContent at h; omega)

/-- A length is read back. -/
theorem readLength_encodeLength {n : Nat} (h : n ≤ maxContent) (rest : Bytes) :
    readLength (encodeLength n ++ rest) = some (n, rest) := by
  by_cases hn : n < 0x80
  · have hoctet : n.toUInt8.toNat = n := by
      simp only [Nat.toUInt8_eq, UInt8.toNat_ofNat']
      omega
    have hshort : n.toUInt8 < 0x80 := by
      rw [UInt8.lt_iff_toNat_lt, hoctet]
      exact hn
    simp only [encodeLength, if_pos hn, List.cons_append, List.nil_append, readLength,
      if_pos hshort, hoctet]
  · have hfour := length_ofNat_le_four h
    have hne := List.length_pos_iff.mpr (Bytes.ofNat_ne_nil (n := n) (by omega))
    have hcount : (0x80 + (Bytes.ofNat n).length).toUInt8.toNat = 0x80 + (Bytes.ofNat n).length := by
      simp only [Nat.toUInt8_eq, UInt8.toNat_ofNat']
      omega
    have hlong : ¬ (0x80 + (Bytes.ofNat n).length).toUInt8 < 0x80 := by
      rw [UInt8.lt_iff_toNat_lt, hcount]
      simp
    have hwritten : encodeLength n = (0x80 + (Bytes.ofNat n).length).toUInt8 :: Bytes.ofNat n := by
      simp only [encodeLength, if_neg hn]
    have htake : (Bytes.ofNat n ++ rest).take (Bytes.ofNat n).length = Bytes.ofNat n :=
      List.take_left' rfl
    have hdrop : (Bytes.ofNat n ++ rest).drop (Bytes.ofNat n).length = rest :=
      List.drop_left' rfl
    have hone : 1 ≤ (Bytes.ofNat n).length := hne
    simp only [hwritten, List.cons_append, readLength, if_neg hlong, hcount,
      Nat.add_sub_cancel_left, htake, hdrop, Bytes.toNatBE_ofNat, decide_true, Bool.and_true,
      hone, hfour, h, if_true]

namespace Element

/-! ### One element -/

/-- An element with a tag and a content that is not too long: one that can be read. -/
structure Readable (e : Element) : Prop where
  tag : isTag e.tag = true
  content : e.content.length ≤ maxContent

instance (e : Element) : Decidable e.Readable :=
  decidable_of_iff (isTag e.tag = true ∧ e.content.length ≤ maxContent)
    ⟨fun h => ⟨h.1, h.2⟩, fun h => ⟨h.tag, h.content⟩⟩

/-- How many octets an element takes around a content of some length. -/
def width (length : Nat) : Nat :=
  1 + (encodeLength length).length + length

theorem length_encode (e : Element) : e.encode.length = width e.content.length := by
  simp only [encode, opening, List.length_append, List.length_cons, width]
  omega

theorem length_content_lt (e : Element) : e.content.length < e.encode.length := by
  rw [length_encode, width]
  omega

/-- A longer content makes a longer element. -/
theorem width_strictMono : StrictMono width := by
  intro m n h
  have hlength : (encodeLength m).length ≤ (encodeLength n).length := by
    unfold encodeLength
    split
    · split <;> simp
    · rw [if_neg (by omega)]
      simpa using Bytes.length_ofNat_mono (Nat.le_of_lt h)
  unfold width
  omega

/-- No two elements have one encoding, be they readable or not. -/
theorem encode_injective : Function.Injective encode := by
  intro e other h
  have hwidth := congrArg List.length h
  rw [length_encode, length_encode] at hwidth
  have hlength := width_strictMono.injective hwidth
  obtain ⟨hopening, hcontent⟩ := List.append_inj h (by simp [opening, hlength])
  obtain ⟨htag, -⟩ := List.cons.inj hopening
  cases e
  cases other
  simp_all

/-- What is around others is as long as these together. -/
theorem length_content_around (tag : UInt8) (items : List Element) :
    (around tag items).content.length = (items.map fun e => width e.content.length).sum := by
  rw [around, List.length_flatMap]
  simp only [length_encode]

/-- An element is read back, and what follows it is left. -/
theorem read?_encode_append {e : Element} (h : e.Readable) (rest : Bytes) :
    read? (e.encode ++ rest) = some (e, rest) := by
  have hlength : e.content.length ≤ (e.content ++ rest).length := by simp
  have htake : (e.content ++ rest).take e.content.length = e.content := List.take_left' rfl
  have hdrop : (e.content ++ rest).drop e.content.length = rest := List.drop_left' rfl
  simp only [encode, opening, List.cons_append, List.append_assoc, read?, h.tag, if_true,
    readLength_encodeLength h.content, hlength, htake, hdrop]

/-- An element is what its encoding is read as. -/
theorem ofBytes?_encode {e : Element} (h : e.Readable) : ofBytes? e.encode = some e := by
  have hread := read?_encode_append h []
  rw [List.append_nil] at hread
  rw [ofBytes?, hread]

/-- What some octets begin with is read with what is read behind it. -/
theorem readAll?_of_read? {bytes rest : Bytes} {e : Element} (h : read? bytes = some (e, rest)) :
    readAll? bytes = (readAll? rest).map (e :: ·) := by
  cases bytes with
  | nil => simp [read?] at h
  | cons b tail =>
    rw [readAll?]
    split
    next hnone => rw [h] at hnone; cases hnone
    next found left hfound =>
      rw [h] at hfound
      cases hfound
      rfl

/-- Elements written one behind the other are read back. -/
theorem readAll?_encodings {items : List Element} (h : ∀ e ∈ items, e.Readable) :
    readAll? (items.flatMap encode) = some items := by
  induction items with
  | nil => rw [List.flatMap_nil, readAll?]
  | cons e items ih =>
    have hread := read?_encode_append (h e List.mem_cons_self) (items.flatMap encode)
    rw [List.flatMap_cons, readAll?_of_read? hread,
      ih fun e' he' => h e' (List.mem_cons_of_mem _ he')]
    rfl

/-! ### Elements around others -/

theorem items?_around {items : List Element} (tag : UInt8) (h : ∀ e ∈ items, e.Readable) :
    (around tag items).items? tag = some items := by
  simp only [around, items?, if_true]
  exact readAll?_encodings h

theorem items?_sequence {items : List Element} (h : ∀ e ∈ items, e.Readable) :
    (sequence items).items? tagSequence = some items :=
  items?_around tagSequence h

theorem inField?_around {number : UInt8} {e : Element} (h : e.Readable) :
    inField? number (around (fieldTag number) [e]) = some e := by
  have hitems : ∀ x ∈ [e], x.Readable := by
    intro x hx
    rw [List.mem_singleton.mp hx]
    exact h
  rw [inField?, items?_around _ hitems]

/-- The elements inside one that is short enough are short enough. -/
theorem Readable.of_around {tag : UInt8} {items : List Element} {e : Element} (he : e ∈ items)
    (htag : isTag e.tag = true) (h : (around tag items).Readable) : e.Readable := by
  refine ⟨htag, Nat.le_of_lt (Nat.lt_of_lt_of_le (length_content_lt e) ?_)⟩
  refine Nat.le_trans ?_ h.content
  obtain ⟨before, behind, rfl⟩ := List.append_of_mem he
  simp only [around, List.flatMap_append, List.flatMap_cons, List.length_append]
  omega

/-! ### Numbered fields -/

theorem takeField_of_plain {e : Element} (number : UInt8) (rest : List Element)
    (h : e.isField = false) : takeField number (e :: rest) = (none, e :: rest) := by
  simp [takeField, List.dropWhile, h]

/-- The first numbered field is taken off. -/
theorem takeField_around_zero (items rest : List Element) :
    takeField 0 (around (fieldTag 0) items :: rest) = (some (around (fieldTag 0) items), rest) := by
  have hfield : (around (fieldTag 0) items).isField = true :=
    (by decide : (0x80 ≤ fieldTag 0 && fieldTag 0 < 0xC0) = true)
  have hnumber : (around (fieldTag 0) items).fieldNumber = 0 :=
    (by decide : fieldTag 0 % 32 = 0)
  simp [takeField, List.dropWhile, hfield, hnumber]

end Element

end JarSigners.Asn1
