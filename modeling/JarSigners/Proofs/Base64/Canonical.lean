import JarSigners.Proofs.Base64
import JarSigners.Proofs.Bytes
import Mathlib.Data.List.TakeWhile

/-!
# One written form

In the standard form the octets are one string of bits, which zeros fill up to whole digits of six
bits each, and `=` fills up the digits to groups of four (`standard`). Encoding by groups of three
octets writes this form (`encode_eq_standard`), and strict decoding accepts nothing else
(`decode?_eq_some_iff`). So with blanks at its ends a text spells some octets, or none, but never
two octet strings, and each octet string has one spelling (`one_accepted_spelling`).
-/

set_option autoImplicit false

namespace JarSigners.Base64

/-! ### The standard form -/

/-- The 64 characters, each at the place of the six bits it stands for. -/
def alphabet : List Char :=
  "ABCDEFGHIJKLMNOPQRSTUVWXYZabcdefghijklmnopqrstuvwxyz0123456789+/".toList

/-- The low digits of a number to the base of 64, most significant first. -/
def digits : (count : Nat) → Nat → List Char
  | 0, _ => []
  | count + 1, n => digits count (n / 64) ++ [alphabet.getD (n % 64) '=']

/-- How many digits of six bits it takes for some octets. -/
def digitCount (octets : Nat) : Nat :=
  (8 * octets + 5) / 6

/-- The octets as one number, with zeros behind its last bit up to a whole digit, and filled up to
groups of four characters. -/
def standard (bytes : Bytes) : List Char :=
  let count := digitCount bytes.length
  digits count (Bytes.toNatBE bytes * 2 ^ (6 * count - 8 * bytes.length)) ++
    List.replicate ((4 - count % 4) % 4) '='

theorem digit_eq_alphabet {n : Nat} (hn : n < 64) : digit n = alphabet.getD n '=' := by
  revert n
  decide

theorem length_digits (count n : Nat) : (digits count n).length = count := by
  induction count generalizing n with
  | zero => rfl
  | succ count ih => rw [digits, List.length_append, ih, List.length_singleton]

/-- The high digits and the low ones of a number. -/
theorem digits_add (high low n : Nat) :
    digits (high + low) n = digits high (n / 64 ^ low) ++ digits low n := by
  induction low generalizing n with
  | zero => simp [digits]
  | succ low ih =>
    have hshift : n / 64 / 64 ^ low = n / 64 ^ (low + 1) := by
      rw [Nat.div_div_eq_div_mul, Nat.pow_succ, Nat.mul_comm]
    rw [← Nat.add_assoc, digits, digits, ih, hshift, List.append_assoc]

/-- What is above the digits does not show in them. -/
theorem digits_add_mul (count n more : Nat) :
    digits count (n + 64 ^ count * more) = digits count n := by
  induction count generalizing n more with
  | zero => rfl
  | succ count ih =>
    have hhigh : (n + 64 ^ (count + 1) * more) / 64 = n / 64 + 64 ^ count * more := by
      rw [Nat.pow_succ, Nat.mul_comm (64 ^ count), Nat.mul_assoc]
      omega
    have hlow : (n + 64 ^ (count + 1) * more) % 64 = n % 64 := by
      rw [Nat.pow_succ, Nat.mul_comm (64 ^ count), Nat.mul_assoc]
      omega
    rw [digits, digits, hhigh, hlow, ih]

theorem digits_succ (count n : Nat) :
    digits (count + 1) n = digits count (n / 64) ++ [digit (n % 64)] := by
  rw [digits, digit_eq_alphabet (Nat.mod_lt n (by decide))]

theorem digits_two (n : Nat) : digits 2 n = [digit (n / 64 % 64), digit (n % 64)] := by
  rw [digits_succ, digits_succ, digits]
  rfl

theorem digits_three (n : Nat) :
    digits 3 n = [digit (n / 4096 % 64), digit (n / 64 % 64), digit (n % 64)] := by
  rw [digits_succ, digits_two, Nat.div_div_eq_div_mul]
  rfl

theorem digits_four (n : Nat) : digits 4 n =
    [digit (n / 262144 % 64), digit (n / 4096 % 64), digit (n / 64 % 64), digit (n % 64)] := by
  rw [digits_succ, digits_three, Nat.div_div_eq_div_mul, Nat.div_div_eq_div_mul]
  rfl

theorem toNatBE_append (bytes more : Bytes) :
    Bytes.toNatBE (bytes ++ more) =
      Bytes.toNatBE bytes * 256 ^ more.length + Bytes.toNatBE more := by
  induction more using List.reverseRecOn with
  | nil => simp [Bytes.toNatBE_nil]
  | append_singleton more b ih =>
    rw [← List.append_assoc, Bytes.toNatBE_append_singleton, ih, Bytes.toNatBE_append_singleton,
      List.length_append, List.length_singleton, Nat.pow_succ, Nat.add_mul, Nat.mul_assoc,
      Nat.add_assoc]

/-- One octet makes two digits, and four bits of the second one are spare. -/
theorem standard_one (a : UInt8) : standard [a] = digits 2 (a.toNat * 16) ++ ['=', '='] := by
  have hcount : digitCount [a].length = 2 := by simp [digitCount]
  have hnumber : Bytes.toNatBE [a] * 2 ^ (6 * 2 - 8 * [a].length) = a.toNat * 16 := by
    simp [Bytes.toNatBE]
  simp only [standard, hcount, hnumber]
  rfl

/-- Two octets make three digits, and two bits of the third one are spare. -/
theorem standard_two (a b : UInt8) :
    standard [a, b] = digits 3 (a.toNat * 1024 + b.toNat * 4) ++ ['='] := by
  have hcount : digitCount [a, b].length = 3 := by simp [digitCount]
  have hnumber : Bytes.toNatBE [a, b] * 2 ^ (6 * 3 - 8 * [a, b].length) =
      a.toNat * 1024 + b.toNat * 4 := by
    simp [Bytes.toNatBE]
    omega
  simp only [standard, hcount, hnumber]
  rfl

/-- Three octets make four digits, whatever follows them. -/
theorem standard_three (a b c : UInt8) (rest : Bytes) :
    standard (a :: b :: c :: rest) =
      digits 4 (a.toNat * 65536 + b.toNat * 256 + c.toNat) ++ standard rest := by
  have hthree : Bytes.toNatBE [a, b, c] = a.toNat * 65536 + b.toNat * 256 + c.toNat := by
    simp only [Bytes.toNatBE, List.foldl_cons, List.foldl_nil, Nat.zero_mul, Nat.zero_add]
    omega
  generalize a.toNat * 65536 + b.toNat * 256 + c.toNat = head at hthree ⊢
  have hcount : digitCount (a :: b :: c :: rest).length = 4 + digitCount rest.length := by
    simp only [digitCount, List.length_cons]
    omega
  have hspare : 6 * (4 + digitCount rest.length) - 8 * (a :: b :: c :: rest).length =
      6 * digitCount rest.length - 8 * rest.length := by
    simp only [digitCount, List.length_cons]
    omega
  have hfilling : (4 - (4 + digitCount rest.length) % 4) % 4 =
      (4 - digitCount rest.length % 4) % 4 := by
    omega
  -- The octets behind the first three take as many bits as the digits that they make.
  have hbits : 256 ^ rest.length * 2 ^ (6 * digitCount rest.length - 8 * rest.length) =
      64 ^ digitCount rest.length := by
    have hroom : 8 * rest.length ≤ 6 * digitCount rest.length := by
      simp only [digitCount]
      omega
    rw [show (256 : Nat) = 2 ^ 8 from rfl, show (64 : Nat) = 2 ^ 6 from rfl, ← Nat.pow_mul,
      ← Nat.pow_mul, ← Nat.pow_add, Nat.add_sub_cancel' hroom]
  have hlow : Bytes.toNatBE rest * 2 ^ (6 * digitCount rest.length - 8 * rest.length) <
      64 ^ digitCount rest.length := by
    rw [← hbits]
    exact Nat.mul_lt_mul_of_pos_right (Bytes.toNatBE_lt rest) (Nat.two_pow_pos _)
  have hnumber : Bytes.toNatBE (a :: b :: c :: rest) *
        2 ^ (6 * digitCount rest.length - 8 * rest.length) =
      Bytes.toNatBE rest * 2 ^ (6 * digitCount rest.length - 8 * rest.length) +
        64 ^ digitCount rest.length * head := by
    rw [show a :: b :: c :: rest = [a, b, c] ++ rest from rfl, toNatBE_append, hthree, Nat.add_mul,
      Nat.mul_assoc, hbits, Nat.add_comm, Nat.mul_comm head]
  simp only [standard, hcount, hspare, hfilling, hnumber]
  rw [digits_add, digits_add_mul, Nat.add_mul_div_left _ _ (Nat.pow_pos (by decide)),
    Nat.div_eq_of_lt hlow, Nat.zero_add, List.append_assoc]

/-- Encoding by groups of three octets writes the standard form. -/
theorem encode_eq_standard (bytes : Bytes) : encode bytes = standard bytes := by
  induction bytes using encode.induct with
  | case1 => rfl
  | case2 a =>
    have ha := a.toNat_lt
    rw [standard_one, encode, digits_two]
    have hfirst : a.toNat * 16 / 64 % 64 = a.toNat / 4 := by omega
    have hsecond : a.toNat * 16 % 64 = a.toNat % 4 * 16 := by omega
    rw [hfirst, hsecond]
    rfl
  | case3 a b =>
    have ha := a.toNat_lt
    have hb := b.toNat_lt
    rw [standard_two, encode, digits_three]
    have hfirst : (a.toNat * 1024 + b.toNat * 4) / 4096 % 64 = a.toNat / 4 := by omega
    have hsecond : (a.toNat * 1024 + b.toNat * 4) / 64 % 64 =
        a.toNat % 4 * 16 + b.toNat / 16 := by omega
    have hthird : (a.toNat * 1024 + b.toNat * 4) % 64 = b.toNat % 16 * 4 := by omega
    rw [hfirst, hsecond, hthird]
    rfl
  | case4 a b c rest ih =>
    have ha := a.toNat_lt
    have hb := b.toNat_lt
    have hc := c.toNat_lt
    rw [standard_three, encode, digits_four, ih]
    have hfirst : (a.toNat * 65536 + b.toNat * 256 + c.toNat) / 262144 % 64 = a.toNat / 4 := by
      omega
    have hsecond : (a.toNat * 65536 + b.toNat * 256 + c.toNat) / 4096 % 64 =
        a.toNat % 4 * 16 + b.toNat / 16 := by omega
    have hthird : (a.toNat * 65536 + b.toNat * 256 + c.toNat) / 64 % 64 =
        b.toNat % 16 * 4 + c.toNat / 64 := by omega
    have hfourth : (a.toNat * 65536 + b.toNat * 256 + c.toNat) % 64 = c.toNat % 64 := by omega
    rw [hfirst, hsecond, hthird, hfourth]
    rfl

/-! ### Strict decoding -/

theorem digit_of_value? {c : Char} {n : Nat} (h : value? c = some n) : digit n = c ∧ n < 64 := by
  have hchar : Char.ofNat c.toNat = c := Char.ofNat_toNat c
  simp only [value?, Bool.and_eq_true, decide_eq_true_eq] at h
  split at h
  next hc =>
    cases h
    have hback : 65 + (c.toNat - 65) = c.toNat := by omega
    refine ⟨?_, by omega⟩
    rw [digit, if_pos (by omega), hback, hchar]
  split at h
  next hc =>
    cases h
    have hback : 97 + (c.toNat - 97 + 26 - 26) = c.toNat := by omega
    refine ⟨?_, by omega⟩
    rw [digit, if_neg (by omega), if_pos (by omega), hback, hchar]
  split at h
  next hc =>
    cases h
    have hback : 48 + (c.toNat - 48 + 52 - 52) = c.toNat := by omega
    refine ⟨?_, by omega⟩
    rw [digit, if_neg (by omega), if_neg (by omega), if_pos (by omega), hback, hchar]
  split at h
  next hc =>
    cases h
    rw [← hchar, hc]
    decide
  split at h
  next hc =>
    cases h
    rw [← hchar, hc]
    decide
  next => cases h

theorem toNat_toUInt8 {n : Nat} (h : n < 256) : n.toUInt8.toNat = n := by
  rw [Nat.toUInt8_eq, UInt8.toNat_ofNat', Nat.mod_eq_of_lt h]

section Groups

variable {w x y z : Char} {m n k l : Nat}

/-- An octet put together from the values of two characters is written as these. -/
theorem encode_one_of_values (hw : value? w = some m) (hx : value? x = some n)
    (hspare : n % 16 = 0) : encode [(m * 4 + n / 16).toUInt8] = [w, x, '=', '='] := by
  obtain ⟨rfl, hm⟩ := digit_of_value? hw
  obtain ⟨rfl, hn⟩ := digit_of_value? hx
  have hone := toNat_toUInt8 (show m * 4 + n / 16 < 256 by omega)
  have hfirst : (m * 4 + n / 16) / 4 = m := by omega
  have hsecond : (m * 4 + n / 16) % 4 * 16 = n := by omega
  rw [encode, hone, hfirst, hsecond]

/-- So are two octets from three. -/
theorem encode_two_of_values (hw : value? w = some m) (hx : value? x = some n)
    (hy : value? y = some k) (hspare : k % 4 = 0) :
    encode [(m * 4 + n / 16).toUInt8, (n % 16 * 16 + k / 4).toUInt8] = [w, x, y, '='] := by
  obtain ⟨rfl, hm⟩ := digit_of_value? hw
  obtain ⟨rfl, hn⟩ := digit_of_value? hx
  obtain ⟨rfl, hk⟩ := digit_of_value? hy
  have hone := toNat_toUInt8 (show m * 4 + n / 16 < 256 by omega)
  have htwo := toNat_toUInt8 (show n % 16 * 16 + k / 4 < 256 by omega)
  have hfirst : (m * 4 + n / 16) / 4 = m := by omega
  have hsecond : (m * 4 + n / 16) % 4 * 16 + (n % 16 * 16 + k / 4) / 16 = n := by omega
  have hthird : (n % 16 * 16 + k / 4) % 16 * 4 = k := by omega
  rw [encode, hone, htwo, hfirst, hsecond, hthird]

/-- And three octets from four, in front of others. -/
theorem encode_three_of_values (hw : value? w = some m) (hx : value? x = some n)
    (hy : value? y = some k) (hz : value? z = some l) (rest : Bytes) :
    encode ((m * 4 + n / 16).toUInt8 :: (n % 16 * 16 + k / 4).toUInt8 ::
        (k % 4 * 64 + l).toUInt8 :: rest) = w :: x :: y :: z :: encode rest := by
  obtain ⟨rfl, hm⟩ := digit_of_value? hw
  obtain ⟨rfl, hn⟩ := digit_of_value? hx
  obtain ⟨rfl, hk⟩ := digit_of_value? hy
  obtain ⟨rfl, hl⟩ := digit_of_value? hz
  have hone := toNat_toUInt8 (show m * 4 + n / 16 < 256 by omega)
  have htwo := toNat_toUInt8 (show n % 16 * 16 + k / 4 < 256 by omega)
  have hthree := toNat_toUInt8 (show k % 4 * 64 + l < 256 by omega)
  have hfirst : (m * 4 + n / 16) / 4 = m := by omega
  have hsecond : (m * 4 + n / 16) % 4 * 16 + (n % 16 * 16 + k / 4) / 16 = n := by omega
  have hthird : (n % 16 * 16 + k / 4) % 16 * 4 + (k % 4 * 64 + l) / 64 = k := by omega
  have hfourth : (k % 4 * 64 + l) % 64 = l := by omega
  rw [encode, hone, htwo, hthree, hfirst, hsecond, hthird, hfourth]

end Groups

/-- What is decoded is written in one way. -/
theorem eq_encode_of_decode? {written : List Char} {bytes : Bytes}
    (h : decode? written = some bytes) : written = encode bytes := by
  induction written using decode?.induct generalizing bytes with
  | case1 =>
    cases h
    rfl
  | case2 w x =>
    simp only [decode?, Option.bind_eq_bind, Option.bind_eq_some_iff] at h
    obtain ⟨m, hw, n, hx, h⟩ := h
    split at h
    next hspare =>
      cases h
      exact (encode_one_of_values hw hx hspare).symm
    next => cases h
  | case3 w x y hy =>
    rw [decode?] at h
    · simp only [Option.bind_eq_bind, Option.bind_eq_some_iff] at h
      obtain ⟨m, hw, n, hx, k, hy, h⟩ := h
      split at h
      next hspare =>
        cases h
        exact (encode_two_of_values hw hx hy hspare).symm
      next => cases h
    · exact hy
  | case4 w x y z rest hnotTwo hnotOne ih =>
    rw [decode?] at h
    · simp only [Option.bind_eq_bind, Option.bind_eq_some_iff] at h
      obtain ⟨m, hw, n, hx, k, hy, l, hz, more, hmore, h⟩ := h
      cases h
      rw [encode_three_of_values hw hx hy hz, ← ih hmore]
    · exact hnotTwo
    · exact hnotOne
  | case5 written hnil hone htwo hmore =>
    rw [decode?] at h
    · cases h
    · exact hnil
    · exact hone
    · exact htwo
    · exact hmore

/-- Decoding accepts what encoding writes and nothing else. -/
theorem decode?_eq_some_iff {written : List Char} {bytes : Bytes} :
    decode? written = some bytes ↔ written = encode bytes := by
  refine ⟨eq_encode_of_decode?, ?_⟩
  rintro rfl
  exact decode?_encode bytes

/-! ### Blanks at the ends -/

/-- What is left of a text without the blanks at its ends has blanks on both sides of it in the
text, if it has none itself. -/
theorem trimmed_eq_iff {written core : List Char} (hcore : ∀ c ∈ core, Text.isBlank c = false) :
    Text.trimmed written = core ↔ ∃ before behind,
      (∀ c ∈ before ++ behind, Text.isBlank c = true) ∧ written = before ++ core ++ behind := by
  constructor
  · rintro rfl
    generalize hrest : written.dropWhile Text.isBlank = rest
    refine ⟨written.takeWhile Text.isBlank, (rest.reverse.takeWhile Text.isBlank).reverse, ?_, ?_⟩
    · intro c hc
      rw [List.mem_append, List.mem_reverse] at hc
      exact hc.elim List.mem_takeWhile_imp List.mem_takeWhile_imp
    · have hback : (rest.reverse.dropWhile Text.isBlank).reverse ++
          (rest.reverse.takeWhile Text.isBlank).reverse = rest := by
        rw [← List.reverse_append, List.takeWhile_append_dropWhile, List.reverse_reverse]
      rw [Text.trimmed, hrest, List.append_assoc, hback, ← hrest, List.takeWhile_append_dropWhile]
  · rintro ⟨before, behind, hblank, rfl⟩
    obtain ⟨hbefore, hbehind⟩ := List.forall_mem_append.1 hblank
    have hreverse : ∀ c ∈ core.reverse, Text.isBlank c = false :=
      fun c hc => hcore c (List.mem_reverse.1 hc)
    rw [Text.trimmed, List.append_assoc, List.dropWhile_append_of_pos hbefore]
    cases core with
    | nil =>
      have hnothing : behind.dropWhile Text.isBlank = [] := List.dropWhile_eq_nil_iff.2 hbehind
      rw [List.nil_append, hnothing]
      rfl
    | cons c rest =>
      have hfirst : ¬ Text.isBlank c = true := by simp [hcore c List.mem_cons_self]
      rw [List.cons_append, List.dropWhile_cons_of_neg hfirst, ← List.cons_append,
        List.reverse_append,
        List.dropWhile_append_of_pos fun d hd => hbehind d (List.mem_reverse.1 hd),
        dropWhile_isBlank_eq hreverse, List.reverse_reverse]

theorem spells_iff_decode? {written : String} {bytes : Bytes} :
    spells written bytes = true ↔ decode? (Text.trimmed written.toList) = some bytes := by
  rw [spells]
  cases decode? (Text.trimmed written.toList) with
  | none => simp
  | some decoded => simp

/-- A text spells some octets exactly if it is their standard form with nothing but blanks around
it. The standard form has no blanks and comes in groups of four characters, one for every three
octets begun; it is what encoding writes, and spells the octets. A text spells no two octet strings:
what it spells determines them. -/
theorem one_accepted_spelling (written : String) (bytes : Bytes) :
    (spells written bytes = true ↔ Text.trimmed written.toList = standard bytes) ∧
    (spells written bytes = true ↔ ∃ before behind,
      (∀ c ∈ before ++ behind, Text.isBlank c = true) ∧
        written.toList = before ++ standard bytes ++ behind) ∧
    (∀ c ∈ standard bytes, Text.isBlank c = false) ∧
    (standard bytes).length = 4 * ((bytes.length + 2) / 3) ∧
    (text bytes).toList = standard bytes ∧ spells (text bytes) bytes = true ∧
    ∀ other, spells written bytes = true → spells written other = true → other = bytes := by
  have hno := isBlank_of_mem_encode bytes
  have hspells : spells written bytes = true ↔ Text.trimmed written.toList = standard bytes := by
    rw [spells_iff_decode?, decode?_eq_some_iff, encode_eq_standard]
  rw [encode_eq_standard] at hno
  refine ⟨hspells, hspells.trans (trimmed_eq_iff hno), hno, ?_, ?_, spells_text_iff.2 rfl, ?_⟩
  · simp only [standard, List.length_append, length_digits, List.length_replicate, digitCount]
    omega
  · rw [text, String.toList_ofList, encode_eq_standard]
  · intro other h hother
    rw [spells_iff_decode?] at h hother
    rw [h] at hother
    exact (Option.some.inj hother).symm

/-- Two octets are spelled in one way only: with other bits behind the last one, without the filling
or with a blank inside, the text spells nothing. -/
theorem two_octets_are_spelled_once :
    spells "\t QUI=\n" [0x41, 0x42] = true ∧
    (∀ other, spells "\t QUI=\n" other = true → other = [0x41, 0x42]) ∧
    ∀ written ∈ ["QUJ=", "QUI", "QU I=", "QUI=="], ∀ octets, spells written octets = false := by
  have hspelled : spells "\t QUI=\n" [0x41, 0x42] = true := by decide +kernel
  obtain ⟨-, -, -, -, -, -, honly⟩ := one_accepted_spelling "\t QUI=\n" [0x41, 0x42]
  refine ⟨hspelled, fun other => honly other hspelled, ?_⟩
  have hnothing : ∀ written ∈ ["QUJ=", "QUI", "QU I=", "QUI=="],
      decode? (Text.trimmed written.toList) = none := by
    decide +kernel
  intro written hwritten octets
  rw [spells, hnothing written hwritten]

end JarSigners.Base64
