import JarSigners.Bytes

/-!
# Elements of a distinguished encoding

An element is a tag octet, a length and that many content octets. Lengths are definite and as
short as they can be, and tags take one octet, so an element has exactly one encoding and
shows where it ends (`read?_encode_append`). What an element's content means is left to the
types built from it.
-/

set_option autoImplicit false

namespace JarSigners.Asn1

/-- Whether this octet is a tag: one of the universal types in use, or a number below 31 in one
of the other classes. -/
def isTag (b : UInt8) : Bool :=
  if b < 0x40 then
    b = 0x30 || b = 0x31 || (0x01 ≤ b && b ≤ 0x06) || b = 0x09 || b = 0x0A || b = 0x0C ||
      (0x12 ≤ b && b ≤ 0x18) || b = 0x1A || b = 0x1E
  else b % 32 ≠ 31

def tagBoolean : UInt8 := 0x01
def tagInteger : UInt8 := 0x02
def tagBitString : UInt8 := 0x03
def tagOctetString : UInt8 := 0x04
def tagNull : UInt8 := 0x05
def tagOid : UInt8 := 0x06
def tagUtf8 : UInt8 := 0x0C
def tagPrintable : UInt8 := 0x13
def tagTeletex : UInt8 := 0x14
def tagIa5 : UInt8 := 0x16
def tagUtcTime : UInt8 := 0x17
def tagGeneralizedTime : UInt8 := 0x18
def tagSequence : UInt8 := 0x30
def tagSet : UInt8 := 0x31

/-- The longest content. -/
def maxContent : Nat := 0x0FFFFFFF

/-- A tag and its content octets. -/
structure Element where
  tag : UInt8
  content : Bytes
  deriving DecidableEq, Repr

/-- A length in one octet, or behind an octet that counts the others. -/
def encodeLength (n : Nat) : Bytes :=
  if n < 0x80 then [n.toUInt8]
  else
    let octets := Bytes.ofNat n
    (0x80 + octets.length).toUInt8 :: octets

/-- A length and what follows. It must not fit a shorter form. -/
def readLength : Bytes → Option (Nat × Bytes)
  | [] => none
  | b :: rest =>
    if b < 0x80 then some (b.toNat, rest)
    else
      let count := b.toNat - 0x80
      let octets := rest.take count
      let n := Bytes.toNatBE octets
      if 1 ≤ count && count ≤ 4 && octets.length = count && n ≤ maxContent &&
          encodeLength n = b :: octets then
        some (n, rest.drop count)
      else none

theorem length_readLength_lt {bytes rest : Bytes} {n : Nat}
    (h : readLength bytes = some (n, rest)) : rest.length < bytes.length := by
  cases bytes with
  | nil => simp [readLength] at h
  | cons b tail =>
    simp only [readLength] at h
    split at h
    · simp only [Option.some.injEq, Prod.mk.injEq] at h
      simp [← h.2]
    · split at h
      · simp only [Option.some.injEq, Prod.mk.injEq] at h
        simp only [← h.2, List.length_drop, List.length_cons]
        omega
      · simp at h

namespace Element

/-- The tag and the length. -/
def opening (e : Element) : Bytes :=
  e.tag :: encodeLength e.content.length

def encode (e : Element) : Bytes :=
  e.opening ++ e.content

/-- The element some octets begin with, and what follows it. -/
def read? : Bytes → Option (Element × Bytes)
  | [] => none
  | tag :: rest =>
    if isTag tag then
      match readLength rest with
      | none => none
      | some (n, rest) =>
        if n ≤ rest.length then some (⟨tag, rest.take n⟩, rest.drop n) else none
    else none

theorem length_read?_lt {bytes rest : Bytes} {e : Element}
    (h : read? bytes = some (e, rest)) : rest.length < bytes.length := by
  cases bytes with
  | nil => simp [read?] at h
  | cons tag tail =>
    simp only [read?] at h
    split at h
    · split at h
      · simp at h
      next n left hl =>
        split at h
        · simp only [Option.some.injEq, Prod.mk.injEq] at h
          have := length_readLength_lt hl
          simp only [← h.2, List.length_drop, List.length_cons]
          omega
        · simp at h
    · simp at h

/-- All elements that some octets consist of. -/
def readAll? (bytes : Bytes) : Option (List Element) :=
  match bytes with
  | [] => some []
  | b :: tail =>
    match h : read? (b :: tail) with
    | none => none
    | some (e, rest) =>
      have : rest.length < (b :: tail).length := length_read?_lt h
      (readAll? rest).map (e :: ·)
termination_by bytes.length
decreasing_by exact this

/-- The one element that some octets are. -/
def ofBytes? (bytes : Bytes) : Option Element :=
  match read? bytes with
  | some (e, []) => some e
  | _ => none

/-- The elements inside an element with this tag. -/
def items? (tag : UInt8) (e : Element) : Option (List Element) :=
  if e.tag = tag then readAll? e.content else none

/-- The content of an element with this tag. -/
def content? (tag : UInt8) (e : Element) : Option Bytes :=
  if e.tag = tag then some e.content else none

/-- An element around others. -/
def around (tag : UInt8) (items : List Element) : Element :=
  ⟨tag, items.flatMap encode⟩

def sequence (items : List Element) : Element :=
  around tagSequence items

/-- The tag of a numbered field that holds other elements. -/
def fieldTag (number : UInt8) : UInt8 := 0xA0 + number

/-- The tag of a numbered field that holds octets. -/
def plainFieldTag (number : UInt8) : UInt8 := 0x80 + number

/-- Whether a tag belongs to a numbered field. -/
def isField (e : Element) : Bool :=
  0x80 ≤ e.tag && e.tag < 0xC0

/-- The number of a field. -/
def fieldNumber (e : Element) : UInt8 :=
  e.tag % 32

/-- The field with this number at the beginning of some elements, and what follows. Fields with
lower numbers before it are passed over. -/
def takeField (number : UInt8) (items : List Element) : Option Element × List Element :=
  match items.dropWhile fun e => e.isField && e.fieldNumber < number with
  | [] => (none, [])
  | e :: rest => if e.isField && e.fieldNumber = number then (some e, rest) else (none, e :: rest)

/-- The single element in a numbered field. -/
def inField? (number : UInt8) (e : Element) : Option Element :=
  match e.items? (fieldTag number) with
  | some [inner] => some inner
  | _ => none

/-- Read an element that may be missing. -/
def optional? {α : Type} (read : Element → Option α) : Option Element → Option (Option α)
  | none => some none
  | some e => (read e).map some

end Element

end JarSigners.Asn1
