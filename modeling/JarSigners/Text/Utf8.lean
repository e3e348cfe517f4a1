import JarSigners.Bytes

/-!
# Text as UTF-8 octets

Strict decoding accepts exactly the octets that some text is written with. Lenient decoding
puts one replacement character for every longest beginning of a sequence that cannot be
continued, and never fails.
-/

set_option autoImplicit false

namespace JarSigners.Text

/-- The octets a text is written with. -/
def utf8 (text : String) : Bytes :=
  text.toUTF8.toList

/-- The text written with these octets, if there is one. -/
def ofUtf8? (bytes : Bytes) : Option String :=
  String.fromUTF8? bytes.toByteArray

/-- What the first octet of a sequence calls for: the payload bits it carries, how many
octets follow, and the bounds of the octet right after it. Octets that begin no sequence
call for nothing. -/
def sequenceHead? (b : UInt8) : Option (Nat × Nat × Nat × Nat) :=
  let n := b.toNat
  if n < 0x80 then some (n, 0, 0x80, 0xBF)
  else if n < 0xC2 then none
  else if n < 0xE0 then some (n - 0xC0, 1, 0x80, 0xBF)
  else if n = 0xE0 then some (0, 2, 0xA0, 0xBF)
  else if n = 0xED then some (0xD, 2, 0x80, 0x9F)
  else if n < 0xF0 then some (n - 0xE0, 2, 0x80, 0xBF)
  else if n = 0xF0 then some (0, 3, 0x90, 0xBF)
  else if n < 0xF4 then some (n - 0xF0, 3, 0x80, 0xBF)
  else if n = 0xF4 then some (4, 3, 0x80, 0x8F)
  else none

/-- Read the octets that continue a sequence: the code point when all are there, and the
octets after the last one that fitted. -/
def continued (low high : Nat) : (missing value : Nat) → Bytes → Option Nat × Bytes
  | 0, value, rest => (some value, rest)
  | _ + 1, _, [] => (none, [])
  | missing + 1, value, b :: rest =>
    if low ≤ b.toNat && b.toNat ≤ high then
      continued 0x80 0xBF missing (value * 64 + (b.toNat - 0x80)) rest
    else (none, b :: rest)

/-- Reading on never gives back octets. -/
theorem length_continued_le (low high missing value : Nat) (rest : Bytes) :
    (continued low high missing value rest).2.length ≤ rest.length := by
  induction missing generalizing low high value rest with
  | zero => simp [continued]
  | succ missing ih =>
    cases rest with
    | nil => simp [continued]
    | cons b rest =>
      simp only [continued]
      split
      · exact Nat.le_trans (ih _ _ _ _) (by simp)
      · exact Nat.le_refl _

/-- Stands for octets that are no text. -/
def replacement : Char := '\uFFFD'

/-- The character that begins the octets `b :: rest`, or the replacement, and what is left. -/
def nextLenient (b : UInt8) (rest : Bytes) : Char × Bytes :=
  match sequenceHead? b with
  | none => (replacement, rest)
  | some (value, missing, low, high) =>
    match continued low high missing value rest with
    | (some code, left) => (Char.ofNat code, left)
    | (none, left) => (replacement, left)

theorem length_nextLenient_le (b : UInt8) (rest : Bytes) :
    (nextLenient b rest).2.length ≤ rest.length := by
  unfold nextLenient
  split
  · exact Nat.le_refl _
  · next value missing low high _ =>
    have h := length_continued_le low high missing value rest
    split <;> simp_all

/-- Lenient decoding behind the characters already read, newest first. -/
def lenientFrom (done : List Char) : Bytes → List Char
  | [] => done.reverse
  | b :: rest => lenientFrom ((nextLenient b rest).1 :: done) (nextLenient b rest).2
termination_by bytes => bytes.length
decreasing_by
  have := length_nextLenient_le b rest
  simp only [List.length_cons]
  omega

/-- The text of some octets, with replacement characters where they are no UTF-8. -/
def ofUtf8Lenient (bytes : Bytes) : String :=
  String.ofList (lenientFrom [] bytes)

end JarSigners.Text
