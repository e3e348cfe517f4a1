import JarSigners.Text.Utf8
import Mathlib.Data.List.Basic

/-!
# UTF-8 is read back

Both ways of decoding undo the encoding: strict decoding by what a text is, and lenient decoding
because it takes exactly the octets of one character at a time (`nextLenient_encodeChar`). An
octet below 128 in an encoded text is a character of its own.
-/

set_option autoImplicit false

namespace JarSigners.Text

open String (utf8EncodeChar)

/-! ### Encoded texts -/

theorem toList_loop_eq (bytes : ByteArray) (i : Nat) (done : List UInt8) :
    ByteArray.toList.loop bytes i done = done.reverse ++ bytes.data.toList.drop i := by
  fun_induction ByteArray.toList.loop bytes i done with
  | case1 i done hlt ih =>
    have hlength : i < bytes.data.toList.length := hlt
    have hget : bytes.get! i = bytes.data[i]! := by cases bytes; rfl
    rw [ih, List.drop_eq_getElem_cons hlength, hget, getElem!_pos bytes.data i hlt,
      List.reverse_cons, List.append_assoc]
    rfl
  | case2 i done hge =>
    have hlength : bytes.data.toList.length ≤ i := Nat.le_of_not_lt hge
    rw [List.drop_eq_nil_of_le hlength, List.append_nil]

theorem toList_toByteArray (bytes : Bytes) : bytes.toByteArray.toList = bytes := by
  rw [ByteArray.toList, toList_loop_eq, List.toList_data_toByteArray]
  rfl

/-- A text is written character by character. -/
theorem utf8_eq (text : String) : utf8 text = text.toList.flatMap utf8EncodeChar := by
  rw [utf8, String.toUTF8, ← String.utf8Encode_toList, List.utf8Encode, toList_toByteArray]

theorem utf8_append (a b : String) : utf8 (a ++ b) = utf8 a ++ utf8 b := by
  simp only [utf8_eq, String.toList_append, List.flatMap_append]

theorem length_utf8_le (text : String) : (utf8 text).length ≤ 4 * text.toList.length := by
  rw [utf8_eq]
  induction text.toList with
  | nil => simp
  | cons c rest ih =>
    have hchar : (utf8EncodeChar c).length ≤ 4 := by
      rw [String.length_utf8EncodeChar]
      exact c.utf8Size_le_four
    rw [List.flatMap_cons, List.length_append, List.length_cons]
    omega

/-- A text of few characters takes few octets. -/
theorem length_utf8_le_of_short {text : String} (h : text.toList.length ≤ 250) :
    (utf8 text).length ≤ 1000 := by
  have hlength := length_utf8_le text
  omega

/-- Strict decoding undoes encoding. -/
theorem ofUtf8?_utf8 (text : String) : ofUtf8? (utf8 text) = some text := by
  have hbytes : (utf8 text).toByteArray = text.toByteArray := by
    rw [utf8_eq, ← String.utf8Encode_toList, List.utf8Encode]
  rw [ofUtf8?, hbytes, String.fromUTF8?, dif_pos text.isValidUTF8]
  rfl

/-- Strict decoding finds the text that is written with these octets, if there is one. -/
theorem ofUtf8?_eq_some_iff {bytes : Bytes} {text : String} :
    ofUtf8? bytes = some text ↔ utf8 text = bytes := by
  constructor
  · intro h
    rw [ofUtf8?, String.fromUTF8?] at h
    split at h
    · cases h
      exact toList_toByteArray bytes
    · cases h
  · rintro rfl
    exact ofUtf8?_utf8 text

/-! ### Single characters -/

/-- The code points that are characters. -/
theorem toNat_char (c : Char) : c.toNat < 0xD800 ∨ 0xDFFF < c.toNat ∧ c.toNat < 0x110000 :=
  c.valid

/-- An octet that carries on a sequence adds its six bits, if it is within the bounds. -/
theorem continued_ofNat {low high bits : Nat} (hbits : bits < 64) (hlow : low ≤ bits + 128)
    (hhigh : bits + 128 ≤ high) (missing value : Nat) (rest : Bytes) :
    continued low high (missing + 1) value (UInt8.ofNat (bits + 128) :: rest) =
      continued 0x80 0xBF missing (value * 64 + bits) rest := by
  have hoctet : (UInt8.ofNat (bits + 128)).toNat = bits + 128 := by
    rw [UInt8.toNat_ofNat']
    omega
  have hwithin : (low ≤ bits + 128 && bits + 128 ≤ high) = true := by simp [hlow, hhigh]
  rw [continued, hoctet, if_pos hwithin, Nat.add_sub_cancel]

/-- A sequence that is complete is the character of its code point. -/
theorem nextLenient_of_head {b : UInt8} {value missing low high code : Nat} {octets rest : Bytes}
    (hhead : sequenceHead? b = some (value, missing, low, high))
    (hcontinued : continued low high missing value octets = (some code, rest)) :
    nextLenient b octets = (Char.ofNat code, rest) := by
  simp only [nextLenient, hhead, hcontinued]

/-- The head of a sequence of two. -/
theorem sequenceHead?_two {n : Nat} (hn : 0x7F < n ∧ n ≤ 0x7FF) :
    sequenceHead? (UInt8.ofNat (n / 64 % 32 + 192)) = some (n / 64, 1, 0x80, 0xBF) := by
  have hoctet : (UInt8.ofNat (n / 64 % 32 + 192)).toNat = n / 64 + 192 := by
    rw [UInt8.toNat_ofNat']
    omega
  simp only [sequenceHead?, hoctet]
  rw [if_neg (by omega), if_neg (by omega), if_pos (by omega), Nat.add_sub_cancel]

/-- The head of a sequence of three. The octet behind the first head must not make a shorter
sequence, and the one behind the head of the surrogates must not make one of them. -/
theorem sequenceHead?_three {n : Nat} (hn : 0x7FF < n ∧ n ≤ 0xFFFF)
    (hvalid : n < 0xD800 ∨ 0xDFFF < n) :
    ∃ low high, sequenceHead? (UInt8.ofNat (n / 4096 % 16 + 224)) = some (n / 4096, 2, low, high) ∧
      low ≤ n / 64 % 64 + 128 ∧ n / 64 % 64 + 128 ≤ high := by
  have hoctet : (UInt8.ofNat (n / 4096 % 16 + 224)).toNat = n / 4096 + 224 := by
    rw [UInt8.toNat_ofNat']
    omega
  simp only [sequenceHead?, hoctet]
  rw [if_neg (by omega), if_neg (by omega), if_neg (by omega)]
  by_cases hfirst : n / 4096 = 0
  · exact ⟨0xA0, 0xBF, by simp [hfirst], by omega, by omega⟩
  by_cases hsurrogate : n / 4096 = 0xD
  · exact ⟨0x80, 0x9F, by simp [hsurrogate], by omega, by omega⟩
  · refine ⟨0x80, 0xBF, ?_, by omega, by omega⟩
    rw [if_neg (by omega), if_neg (by omega), if_pos (by omega), Nat.add_sub_cancel]

/-- The head of a sequence of four. The octet behind the first head must not make a shorter
sequence, and the one behind the last head must not lead beyond all characters. -/
theorem sequenceHead?_four {n : Nat} (hn : 0xFFFF < n) (hvalid : n < 0x110000) :
    ∃ low high, sequenceHead? (UInt8.ofNat (n / 262144 % 8 + 240)) =
        some (n / 262144, 3, low, high) ∧
      low ≤ n / 4096 % 64 + 128 ∧ n / 4096 % 64 + 128 ≤ high := by
  have hoctet : (UInt8.ofNat (n / 262144 % 8 + 240)).toNat = n / 262144 + 240 := by
    rw [UInt8.toNat_ofNat']
    omega
  simp only [sequenceHead?, hoctet]
  rw [if_neg (by omega), if_neg (by omega), if_neg (by omega), if_neg (by omega),
    if_neg (by omega), if_neg (by omega)]
  by_cases hfirst : n / 262144 = 0
  · exact ⟨0x90, 0xBF, by simp [hfirst], by omega, by omega⟩
  by_cases hlast : n / 262144 = 4
  · exact ⟨0x80, 0x8F, by simp [hlast], by omega, by omega⟩
  · refine ⟨0x80, 0xBF, ?_, by omega, by omega⟩
    rw [if_neg (by omega), if_pos (by omega), Nat.add_sub_cancel]

/-! ### Sequences by their number of octets -/

theorem nextLenient_one {n : Nat} (hn : n ≤ 0x7F) (rest : Bytes) :
    nextLenient (UInt8.ofNat n) rest = (Char.ofNat n, rest) := by
  have hoctet : (UInt8.ofNat n).toNat = n := by
    rw [UInt8.toNat_ofNat']
    omega
  have hhead : sequenceHead? (UInt8.ofNat n) = some (n, 0, 0x80, 0xBF) := by
    rw [sequenceHead?, hoctet]
    exact if_pos (by omega)
  exact nextLenient_of_head hhead rfl

theorem nextLenient_two {n : Nat} (hn : 0x7F < n ∧ n ≤ 0x7FF) (rest : Bytes) :
    nextLenient (UInt8.ofNat (n / 64 % 32 + 192)) (UInt8.ofNat (n % 64 + 128) :: rest) =
      (Char.ofNat n, rest) := by
  refine nextLenient_of_head (sequenceHead?_two hn) ?_
  have hvalue : n / 64 * 64 + n % 64 = n := by omega
  rw [continued_ofNat (by omega) (by omega) (by omega), hvalue, continued]

theorem nextLenient_three {n : Nat} (hn : 0x7FF < n ∧ n ≤ 0xFFFF)
    (hvalid : n < 0xD800 ∨ 0xDFFF < n) (rest : Bytes) :
    nextLenient (UInt8.ofNat (n / 4096 % 16 + 224)) (UInt8.ofNat (n / 64 % 64 + 128) ::
      UInt8.ofNat (n % 64 + 128) :: rest) = (Char.ofNat n, rest) := by
  obtain ⟨low, high, hhead, hlow, hhigh⟩ := sequenceHead?_three hn hvalid
  refine nextLenient_of_head hhead ?_
  have hvalue : (n / 4096 * 64 + n / 64 % 64) * 64 + n % 64 = n := by omega
  rw [continued_ofNat (by omega) hlow hhigh, continued_ofNat (by omega) (by omega) (by omega),
    hvalue, continued]

theorem nextLenient_four {n : Nat} (hn : 0xFFFF < n) (hvalid : n < 0x110000) (rest : Bytes) :
    nextLenient (UInt8.ofNat (n / 262144 % 8 + 240)) (UInt8.ofNat (n / 4096 % 64 + 128) ::
      UInt8.ofNat (n / 64 % 64 + 128) :: UInt8.ofNat (n % 64 + 128) :: rest) =
        (Char.ofNat n, rest) := by
  obtain ⟨low, high, hhead, hlow, hhigh⟩ := sequenceHead?_four hn hvalid
  refine nextLenient_of_head hhead ?_
  have hvalue :
      ((n / 262144 * 64 + n / 4096 % 64) * 64 + n / 64 % 64) * 64 + n % 64 = n := by
    omega
  rw [continued_ofNat (by omega) hlow hhigh, continued_ofNat (by omega) (by omega) (by omega),
    continued_ofNat (by omega) (by omega) (by omega), hvalue, continued]

/-- Lenient decoding takes the octets of a character together. -/
theorem nextLenient_encodeChar (c : Char) (rest : Bytes) :
    ∃ b tail, utf8EncodeChar c = b :: tail ∧ nextLenient b (tail ++ rest) = (c, rest) := by
  have hvalid := toNat_char c
  have hchar : Char.ofNat c.toNat = c := Char.ofNat_toNat c
  have hval : c.val.toNat = c.toNat := rfl
  unfold utf8EncodeChar
  rw [hval]
  dsimp only
  by_cases hone : c.toNat ≤ 127
  · refine ⟨_, _, if_pos hone, ?_⟩
    exact (nextLenient_one hone rest).trans (by rw [hchar])
  by_cases htwo : c.toNat ≤ 2047
  · refine ⟨_, _, (if_neg hone).trans (if_pos htwo), ?_⟩
    exact (nextLenient_two ⟨by omega, htwo⟩ rest).trans (by rw [hchar])
  by_cases hthree : c.toNat ≤ 65535
  · refine ⟨_, _, (if_neg hone).trans ((if_neg htwo).trans (if_pos hthree)), ?_⟩
    exact (nextLenient_three ⟨by omega, hthree⟩ (by omega) rest).trans (by rw [hchar])
  · refine ⟨_, _, (if_neg hone).trans ((if_neg htwo).trans (if_neg hthree)), ?_⟩
    exact (nextLenient_four (by omega) (by omega) rest).trans (by rw [hchar])

/-! ### Lenient decoding -/

theorem lenientFrom_flatMap (text : List Char) (done : List Char) :
    lenientFrom done (text.flatMap utf8EncodeChar) = done.reverse ++ text := by
  induction text generalizing done with
  | nil => rw [List.flatMap_nil, lenientFrom, List.append_nil]
  | cons c text ih =>
    obtain ⟨b, tail, hencode, hnext⟩ := nextLenient_encodeChar c (text.flatMap utf8EncodeChar)
    rw [List.flatMap_cons, hencode, List.cons_append, lenientFrom, hnext, ih,
      List.reverse_cons, List.append_assoc, List.singleton_append]

/-- Lenient decoding undoes encoding. -/
theorem ofUtf8Lenient_utf8 (text : String) : ofUtf8Lenient (utf8 text) = text := by
  rw [ofUtf8Lenient, utf8_eq, lenientFrom_flatMap]
  exact String.ofList_toList

/-! ### ASCII -/

/-- An octet below 128 in the encoding of a character is all of it. -/
theorem toNat_of_mem_encodeChar {c : Char} {b : UInt8} (hmem : b ∈ utf8EncodeChar c)
    (hb : b.toNat < 128) : c.toNat = b.toNat := by
  have hvalid := toNat_char c
  have hval : c.val.toNat = c.toNat := rfl
  simp only [utf8EncodeChar, hval] at hmem
  split at hmem
  next =>
    rw [List.mem_singleton] at hmem
    rw [hmem, UInt8.toNat_ofNat']
    omega
  next =>
    exfalso
    split at hmem
    next =>
      simp only [List.mem_cons, List.not_mem_nil, or_false] at hmem
      rcases hmem with rfl | rfl <;> rw [UInt8.toNat_ofNat'] at hb <;> omega
    next =>
      split at hmem
      next =>
        simp only [List.mem_cons, List.not_mem_nil, or_false] at hmem
        rcases hmem with rfl | rfl | rfl <;> rw [UInt8.toNat_ofNat'] at hb <;> omega
      next =>
        simp only [List.mem_cons, List.not_mem_nil, or_false] at hmem
        rcases hmem with rfl | rfl | rfl | rfl <;> rw [UInt8.toNat_ofNat'] at hb <;> omega

/-- An octet below 128 in an encoded text is one of its characters. -/
theorem mem_of_mem_utf8 {text : String} {b : UInt8} (hmem : b ∈ utf8 text)
    (hb : b.toNat < 128) : ∃ c ∈ text.toList, c.toNat = b.toNat := by
  rw [utf8_eq, List.mem_flatMap] at hmem
  obtain ⟨c, hc, hmem⟩ := hmem
  exact ⟨c, hc, toNat_of_mem_encodeChar hmem hb⟩

/-- A character below 128 is encoded as one octet. -/
theorem encodeChar_of_small {c : Char} (hsmall : c.toNat < 128) :
    utf8EncodeChar c = [UInt8.ofNat c.toNat] := by
  have hval : c.val.toNat = c.toNat := rfl
  rw [utf8EncodeChar, hval, if_pos (Nat.le_of_lt_succ hsmall)]

theorem mem_utf8_of_mem {text : String} {c : Char} (hc : c ∈ text.toList)
    (hsmall : c.toNat < 128) : UInt8.ofNat c.toNat ∈ utf8 text := by
  rw [utf8_eq, List.mem_flatMap]
  exact ⟨c, hc, by rw [encodeChar_of_small hsmall, List.mem_singleton]⟩

end JarSigners.Text
