import JarSigners.Base64
import Mathlib.Data.List.Basic

/-!
# Base64 is read back

Decoding undoes encoding (`decode?_encode`), and no blank is ever written. So the written form of
some octets spells them and no others (`spells_text_iff`).
-/

set_option autoImplicit false

namespace JarSigners.Base64

/-! ### Digits -/

theorem value?_digit {n : Nat} (hn : n < 64) : value? (digit n) = some n := by
  revert n
  decide

theorem digit_ne_filling {n : Nat} (hn : n < 64) : digit n ≠ '=' := by
  revert n
  decide

theorem isBlank_digit {n : Nat} (hn : n < 64) : Text.isBlank (digit n) = false := by
  revert n
  decide +kernel

/-! ### Reading back -/

/-- Four digits that are not filled up stand for three octets. -/
theorem decode?_digits {w x y z : Nat} (hw : w < 64) (hx : x < 64) (hy : y < 64) (hz : z < 64)
    (rest : List Char) :
    decode? (digit w :: digit x :: digit y :: digit z :: rest) =
      (decode? rest).map fun more => (w * 4 + x / 16).toUInt8 ::
        (x % 16 * 16 + y / 4).toUInt8 :: (y % 4 * 64 + z).toUInt8 :: more := by
  have hlast := digit_ne_filling hz
  rw [decode?]
  · simp only [value?_digit hw, value?_digit hx, value?_digit hy, value?_digit hz,
      Option.bind_eq_bind, Option.bind_some]
    cases decode? rest <;> rfl
  · simp [hlast]
  · simp [hlast]

/-- Decoding undoes encoding. -/
theorem decode?_encode (bytes : Bytes) : decode? (encode bytes) = some bytes := by
  induction bytes using encode.induct with
  | case1 => rfl
  | case2 a =>
    have ha := a.toNat_lt
    have hspare : a.toNat % 4 * 16 % 16 = 0 := by omega
    have hfirst : a.toNat / 4 * 4 + a.toNat % 4 * 16 / 16 = a.toNat := by omega
    simp only [encode, decode?, value?_digit (show a.toNat / 4 < 64 by omega),
      value?_digit (show a.toNat % 4 * 16 < 64 by omega), Option.bind_eq_bind, Option.bind_some,
      hspare, hfirst, if_true, Nat.toUInt8_eq, UInt8.ofNat_toNat]
  | case3 a b =>
    have ha := a.toNat_lt
    have hb := b.toNat_lt
    have hspare : b.toNat % 16 * 4 % 4 = 0 := by omega
    have hfirst : a.toNat / 4 * 4 + (a.toNat % 4 * 16 + b.toNat / 16) / 16 = a.toNat := by omega
    have hsecond : (a.toNat % 4 * 16 + b.toNat / 16) % 16 * 16 + b.toNat % 16 * 4 / 4 =
        b.toNat := by omega
    have hthird := digit_ne_filling (show b.toNat % 16 * 4 < 64 by omega)
    rw [encode, decode?]
    · simp only [value?_digit (show a.toNat / 4 < 64 by omega),
        value?_digit (show a.toNat % 4 * 16 + b.toNat / 16 < 64 by omega),
        value?_digit (show b.toNat % 16 * 4 < 64 by omega), Option.bind_eq_bind,
        Option.bind_some, hspare, hfirst, hsecond, if_true, Nat.toUInt8_eq, UInt8.ofNat_toNat]
    · exact hthird
  | case4 a b c rest ih =>
    have ha := a.toNat_lt
    have hb := b.toNat_lt
    have hc := c.toNat_lt
    have hfirst : a.toNat / 4 * 4 + (a.toNat % 4 * 16 + b.toNat / 16) / 16 = a.toNat := by omega
    have hsecond : (a.toNat % 4 * 16 + b.toNat / 16) % 16 * 16 +
        (b.toNat % 16 * 4 + c.toNat / 64) / 4 = b.toNat := by omega
    have hthird : (b.toNat % 16 * 4 + c.toNat / 64) % 4 * 64 + c.toNat % 64 = c.toNat := by omega
    rw [encode, decode?_digits (by omega) (by omega) (by omega) (by omega), ih, hfirst, hsecond,
      hthird, Option.map_some, Nat.toUInt8_eq, Nat.toUInt8_eq, Nat.toUInt8_eq, UInt8.ofNat_toNat,
      UInt8.ofNat_toNat, UInt8.ofNat_toNat]

/-! ### No blanks -/

theorem isBlank_of_mem_encode (bytes : Bytes) : ∀ c ∈ encode bytes, Text.isBlank c = false := by
  have hfilling : Text.isBlank '=' = false := by decide +kernel
  induction bytes using encode.induct with
  | case1 => simp [encode]
  | case2 a =>
    have ha := a.toNat_lt
    simp only [encode, List.forall_mem_cons, List.not_mem_nil, false_imp_iff, implies_true]
    exact ⟨isBlank_digit (by omega), isBlank_digit (by omega), hfilling, hfilling, trivial⟩
  | case3 a b =>
    have ha := a.toNat_lt
    have hb := b.toNat_lt
    simp only [encode, List.forall_mem_cons, List.not_mem_nil, false_imp_iff, implies_true]
    exact ⟨isBlank_digit (by omega), isBlank_digit (by omega), isBlank_digit (by omega), hfilling,
      trivial⟩
  | case4 a b c rest ih =>
    have ha := a.toNat_lt
    have hb := b.toNat_lt
    have hc := c.toNat_lt
    simp only [encode, List.forall_mem_cons]
    exact ⟨isBlank_digit (by omega), isBlank_digit (by omega), isBlank_digit (by omega),
      isBlank_digit (by omega), ih⟩

theorem dropWhile_isBlank_eq {text : List Char} (h : ∀ c ∈ text, Text.isBlank c = false) :
    text.dropWhile Text.isBlank = text := by
  cases text with
  | nil => rfl
  | cons c rest => simp [h c List.mem_cons_self]

theorem trimmed_encode (bytes : Bytes) : Text.trimmed (encode bytes) = encode bytes := by
  have hno := isBlank_of_mem_encode bytes
  have hreverse : ∀ c ∈ (encode bytes).reverse, Text.isBlank c = false :=
    fun c hc => hno c (List.mem_reverse.1 hc)
  rw [Text.trimmed, dropWhile_isBlank_eq hno, dropWhile_isBlank_eq hreverse, List.reverse_reverse]

/-- What is written for some octets spells these and no others. -/
theorem spells_text_iff {written bytes : Bytes} :
    spells (text written) bytes = true ↔ written = bytes := by
  rw [spells, text, String.toList_ofList, trimmed_encode, decode?_encode]
  exact beq_iff_eq

end JarSigners.Base64
