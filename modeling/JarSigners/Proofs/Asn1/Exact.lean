import JarSigners.Proofs.Asn1.RoundTrip

/-!
# Elements are what they were read from

What an element is read from is its encoding, so reading and writing undo each other both ways
(`encode_of_read?`). An element shows where it ends, and therefore octets begin with one element at
most, and elements written one behind the other can be told apart again, be they of known types or
not (`encodings_inj`). How long an element becomes depends on how long those inside it are.
-/

set_option autoImplicit false

namespace JarSigners.Asn1

/-- A length is read from its encoding, and is not beyond the greatest one. -/
theorem encodeLength_of_readLength {bytes rest : Bytes} {n : Nat}
    (h : readLength bytes = some (n, rest)) : bytes = encodeLength n ++ rest ∧ n ≤ maxContent := by
  cases bytes with
  | nil => cases h
  | cons b tail =>
    simp only [readLength] at h
    split at h
    next hshort =>
      cases h
      have hlt : b.toNat < 0x80 := UInt8.lt_iff_toNat_lt.1 hshort
      have hmax : b.toNat ≤ maxContent := Nat.le_trans (Nat.le_of_lt hlt) (by decide)
      have hwritten : encodeLength b.toNat = [b] := by
        rw [encodeLength, if_pos hlt, Nat.toUInt8_eq, UInt8.ofNat_toNat]
      exact ⟨by rw [hwritten]; rfl, hmax⟩
    next =>
      split at h
      next hlong =>
        simp only [Option.some.injEq, Prod.mk.injEq] at h
        obtain ⟨rfl, rfl⟩ := h
        simp only [Bool.and_eq_true, decide_eq_true_eq] at hlong
        obtain ⟨⟨-, hmax⟩, hwritten⟩ := hlong
        refine ⟨?_, hmax⟩
        rw [hwritten, List.cons_append, List.take_append_drop]
      next => cases h

namespace Element

variable {bytes rest : Bytes} {e other : Element} {items others : List Element} {tag : UInt8}

/-! ### Reading exactly -/

/-- Octets that an element is read from begin with its encoding. -/
theorem encode_of_read? (h : read? bytes = some (e, rest)) :
    bytes = e.encode ++ rest ∧ e.Readable := by
  cases bytes with
  | nil => cases h
  | cons b tail =>
    simp only [read?] at h
    split at h
    next htag =>
      split at h
      next => cases h
      next n left hlength =>
        obtain ⟨htail, hmax⟩ := encodeLength_of_readLength hlength
        split at h
        next hfits =>
          cases h
          have htaken : (left.take n).length = n := List.length_take_of_le hfits
          refine ⟨?_, htag, by rw [htaken]; exact hmax⟩
          rw [encode, opening, htaken, List.cons_append, List.cons_append, List.append_assoc,
            List.take_append_drop, htail]
        next => cases h
    next => cases h

/-- Octets that elements are read from are their encodings. -/
theorem encodings_of_readAll? (h : readAll? bytes = some items) :
    items.flatMap encode = bytes ∧ ∀ e ∈ items, e.Readable := by
  fun_induction readAll? bytes generalizing items with
  | case1 =>
    cases h
    simp
  | case2 => cases h
  | case3 b tail e rest hread _ ih =>
    obtain ⟨items, hitems, rfl⟩ := Option.map_eq_some_iff.1 h
    obtain ⟨hrest, hreadable⟩ := ih hitems
    obtain ⟨hbytes, he⟩ := encode_of_read? hread
    exact ⟨by rw [List.flatMap_cons, hrest, hbytes], List.forall_mem_cons.2 ⟨he, hreadable⟩⟩

theorem encode_of_ofBytes? (h : ofBytes? bytes = some e) : e.encode = bytes ∧ e.Readable := by
  unfold ofBytes? at h
  split at h
  next found hread =>
    cases h
    obtain ⟨hbytes, hreadable⟩ := encode_of_read? hread
    rw [List.append_nil] at hbytes
    exact ⟨hbytes.symm, hreadable⟩
  next => cases h

/-- An element that others are read from is one around them. -/
theorem eq_around_of_items? (h : e.items? tag = some items) :
    e = around tag items ∧ ∀ x ∈ items, x.Readable := by
  unfold items? at h
  split at h
  next htag =>
    obtain ⟨hcontent, hreadable⟩ := encodings_of_readAll? h
    refine ⟨?_, hreadable⟩
    rw [around, hcontent, ← htag]
  next => cases h

theorem content?_eq_some_iff {content : Bytes} :
    e.content? tag = some content ↔ e = ⟨tag, content⟩ := by
  cases e
  simp only [content?, mk.injEq]
  split
  next htag => simp [htag]
  next htag => simp [htag]

/-! ### Telling elements apart -/

/-- An element with a content that is not too long, whatever its tag. -/
def Short (e : Element) : Prop :=
  e.content.length ≤ maxContent

theorem Readable.short (h : e.Readable) : e.Short :=
  h.content

/-- The elements inside a short one are short. -/
theorem Short.of_around (he : e ∈ items) (h : (around tag items).Short) : e.Short := by
  refine Nat.le_of_lt (Nat.lt_of_lt_of_le (length_content_lt e) (Nat.le_trans ?_ h))
  obtain ⟨before, behind, rfl⟩ := List.append_of_mem he
  simp only [around, List.flatMap_append, List.flatMap_cons, List.length_append]
  omega

/-- Octets begin with one short element at most. -/
theorem encode_append_inj {more : Bytes} (he : e.Short) (hother : other.Short)
    (h : e.encode ++ rest = other.encode ++ more) : e = other ∧ rest = more := by
  simp only [encode, opening, List.cons_append, List.append_assoc, List.cons.injEq] at h
  obtain ⟨htag, hoctets⟩ := h
  have hlength := congrArg readLength hoctets
  rw [readLength_encodeLength he, readLength_encodeLength hother, Option.some.injEq,
    Prod.mk.injEq] at hlength
  obtain ⟨hcontent, hmore⟩ := List.append_inj hlength.2 hlength.1
  cases e
  cases other
  simp_all

/-- Short elements written one behind the other can be told apart. -/
theorem encodings_inj (hitems : ∀ e ∈ items, e.Short) (hothers : ∀ e ∈ others, e.Short)
    (h : items.flatMap encode = others.flatMap encode) : items = others := by
  have hne : ∀ (e : Element) (rest : Bytes), e.encode ++ rest ≠ [] := by
    intro e rest hnil
    simp [encode, opening] at hnil
  induction items generalizing others with
  | nil =>
    cases others with
    | nil => rfl
    | cons e others =>
      rw [List.flatMap_nil, List.flatMap_cons] at h
      exact absurd h.symm (hne _ _)
  | cons e items ih =>
    cases others with
    | nil =>
      rw [List.flatMap_nil, List.flatMap_cons] at h
      exact absurd h (hne _ _)
    | cons other others =>
      obtain ⟨he, hitems⟩ := List.forall_mem_cons.1 hitems
      obtain ⟨hother, hothers⟩ := List.forall_mem_cons.1 hothers
      rw [List.flatMap_cons, List.flatMap_cons] at h
      obtain ⟨hhead, htail⟩ := encode_append_inj he hother h
      rw [hhead, ih hitems hothers htail]

/-- What is inside a short element is determined by it. -/
theorem around_inj (hshort : (around tag items).Short) (h : around tag items = around tag others) :
    items = others := by
  refine encodings_inj (fun e => hshort.of_around) (fun e he => ?_) (congrArg content h)
  rw [h] at hshort
  exact hshort.of_around he

/-- Members are determined by what is written for them if each one is. -/
theorem map_inj {α : Type} {write : α → Element} {xs ys : List α}
    (hinj : ∀ x ∈ xs, ∀ y, write x = write y → x = y) (h : xs.map write = ys.map write) :
    xs = ys := by
  induction xs generalizing ys with
  | nil => exact (List.map_eq_nil_iff.1 h.symm).symm
  | cons x xs ih =>
    cases ys with
    | nil => cases h
    | cons y ys =>
      obtain ⟨hx, hxs⟩ := List.forall_mem_cons.1 hinj
      obtain ⟨hhead, htail⟩ := List.cons.inj h
      rw [hx y hhead, ih hxs htail]

/-! ### How long elements become -/

/-- How many octets it takes to write elements one behind the other. -/
def span (items : List Element) : Nat :=
  (items.flatMap encode).length

theorem span_nil : span [] = 0 :=
  rfl

theorem span_cons (e : Element) (items : List Element) :
    span (e :: items) = e.encode.length + span items := by
  simp [span]

theorem span_append (items others : List Element) :
    span (items ++ others) = span items + span others := by
  simp [span]

theorem span_perm (h : items.Perm others) : span items = span others :=
  (h.flatMap_right encode).length_eq

theorem span_le_of_sublist (h : items.Sublist others) : span items ≤ span others := by
  induction h with
  | slnil => exact Nat.le_refl _
  | cons e _ ih =>
    rw [span_cons]
    omega
  | cons_cons e _ ih =>
    rw [span_cons, span_cons]
    omega

/-- An element around longer ones is longer. -/
theorem length_encode_around_le {outer : UInt8} (h : span items ≤ span others) :
    (around tag items).encode.length ≤ (around outer others).encode.length := by
  rw [length_encode, length_encode]
  exact width_strictMono.monotone h

/-- An element is longer around a longer first one and the same others. -/
theorem length_encode_around_cons_le (h : e.encode.length ≤ other.encode.length) :
    (around tag (e :: items)).encode.length ≤ (around tag (other :: items)).encode.length := by
  apply length_encode_around_le
  rw [span_cons, span_cons]
  exact Nat.add_le_add_right h _

end Element

end JarSigners.Asn1
