import JarSigners.Asn1.Oid
import JarSigners.Asn1.SetOf

/-!
# Primitive values

Integers, bit strings, identifiers and times, as they stand in certificates and signed
messages. Each reader accepts one form only, so writing a value again gives the octets it was
read from.
-/

set_option autoImplicit false

namespace JarSigners.Asn1

/-- An integer by its two's-complement octets, as few as possible. -/
structure Integer where
  content : Bytes
  deriving DecidableEq, Repr

namespace Integer

/-- Whether some octets are a number in as few as possible. -/
def isShortest : Bytes → Bool
  | [] => false
  | [_] => true
  | first :: second :: _ =>
    !(first = 0 && second < 0x80) && !(first = 0xFF && 0x80 ≤ second)

def ofElement? (e : Element) : Option Integer :=
  match e.content? tagInteger with
  | some content => if isShortest content then some ⟨content⟩ else none
  | none => none

def element (i : Integer) : Element :=
  ⟨tagInteger, i.content⟩

/-- The number, unless it is negative. -/
def toNat? (i : Integer) : Option Nat :=
  match i.content with
  | first :: _ => if first < 0x80 then some (Bytes.toNatBE i.content) else none
  | [] => none

def ofNat (n : Nat) : Integer :=
  let octets := Bytes.ofNat n
  match octets with
  | [] => ⟨[0]⟩
  | first :: _ => if first < 0x80 then ⟨octets⟩ else ⟨0 :: octets⟩

end Integer

/-- A number from zero up to a bound, as versions are written. -/
def versionUpTo? (bound : Nat) (e : Element) : Option Nat := do
  let i ← Integer.ofElement? e
  let n ← i.toNat?
  if n ≤ bound then some n else none

/-- Octets of which some last bits may be unused. -/
structure BitString where
  unused : UInt8
  octets : Bytes
  deriving DecidableEq, Repr

namespace BitString

def ofContent? : Bytes → Option BitString
  | [] => none
  | unused :: octets =>
    if unused ≤ 7 && (unused = 0 || !octets.isEmpty) then some ⟨unused, octets⟩ else none

def content (b : BitString) : Bytes :=
  b.unused :: b.octets

def ofElement? (tag : UInt8) (e : Element) : Option BitString :=
  (e.content? tag).bind ofContent?

def element (tag : UInt8) (b : BitString) : Element :=
  ⟨tag, b.content⟩

/-- The octets, if all bits are used. -/
def whole? (b : BitString) : Option Bytes :=
  if b.unused = 0 then some b.octets else none

end BitString

namespace Oid

def ofElement? (e : Element) : Option Oid :=
  (e.content? tagOid).bind ofContent?

def element (oid : Oid) : Element :=
  ⟨tagOid, oid.content⟩

end Oid

namespace Time

/-- The number that two ASCII digits stand for. -/
def twoDigits? (a b : UInt8) : Option Nat :=
  if 48 ≤ a && a ≤ 57 && 48 ≤ b && b ≤ 57 then
    some ((a.toNat - 48) * 10 + (b.toNat - 48))
  else none

def daysIn (year month : Nat) : Nat :=
  if month = 2 then
    if year % 4 = 0 && (year % 100 ≠ 0 || year % 400 = 0) then 29 else 28
  else if month = 4 || month = 6 || month = 9 || month = 11 then 30
  else 31

/-- Whether `MMDDHHMMSSZ` names a second of this year. -/
def isWithin (year : Nat) (rest : Bytes) : Bool :=
  match rest with
  | [m1, m2, d1, d2, h1, h2, n1, n2, s1, s2, z] =>
    match twoDigits? m1 m2, twoDigits? d1 d2, twoDigits? h1 h2, twoDigits? n1 n2,
        twoDigits? s1 s2 with
    | some month, some day, some hour, some minute, some second =>
      z = 90 && 1 ≤ month && month ≤ 12 && 1 ≤ day && day ≤ daysIn year month &&
        hour ≤ 23 && minute ≤ 59 && second ≤ 59
    | _, _, _, _, _ => false
  | _ => false

/-- A time from 1970 on; two-digit years end in 2049. -/
def isValid (e : Element) : Bool :=
  if e.tag = tagUtcTime then
    match e.content with
    | y1 :: y2 :: rest =>
      match twoDigits? y1 y2 with
      | some short =>
        let year := if short < 50 then 2000 + short else 1900 + short
        1970 ≤ year && isWithin year rest
      | none => false
    | _ => false
  else if e.tag = tagGeneralizedTime then
    match e.content with
    | y1 :: y2 :: y3 :: y4 :: rest =>
      match twoDigits? y1 y2, twoDigits? y3 y4 with
      | some high, some low =>
        let year := high * 100 + low
        1970 ≤ year && isWithin year rest
      | _, _ => false
    | _ => false
  else false

end Time

end JarSigners.Asn1
