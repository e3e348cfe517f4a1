import JarSigners.Bytes

/-!
# Object identifiers

An identifier is kept as its content octets and is compared by them. The arcs behind the first
two are numbers in base 128, most significant digit first, at most four digits each.
-/

set_option autoImplicit false

namespace JarSigners.Asn1

/-- An object identifier, by its content octets. -/
structure Oid where
  content : Bytes
  deriving DecidableEq, Repr

namespace Oid

/-- Base 128 with the high bit on every digit but the last; four digits at most. -/
def base128 (n : Nat) : Bytes :=
  let low := (n % 128).toUInt8
  let second := (128 + n / 128 % 128).toUInt8
  let third := (128 + n / 16384 % 128).toUInt8
  let fourth := (128 + n / 2097152 % 128).toUInt8
  if n < 128 then [low]
  else if n < 16384 then [second, low]
  else if n < 2097152 then [third, second, low]
  else [fourth, third, second, low]

/-- The identifier with these arcs. -/
def ofArcs (first second : Nat) (rest : List Nat) : Oid :=
  ⟨(first * 40 + second).toUInt8 :: rest.flatMap base128⟩

/-- Read base-128 numbers: `digits` and `value` are those of the number begun, if any. -/
def arcsFrom (digits value : Nat) : Bytes → Option (List Nat)
  | [] => if digits = 0 then some [] else none
  | b :: rest =>
    if digits = 4 then none
    else
      let value := value * 128 + b.toNat % 128
      if b.toNat < 128 then (arcsFrom 0 0 rest).map (value :: ·)
      else arcsFrom (digits + 1) value rest

/-- All arcs of some content octets; none when they are no identifier. The first octet holds
the first two arcs. -/
def arcs? : Bytes → Option (List Nat)
  | [] => none
  | head :: rest =>
    if head.toNat < 120 then
      (arcsFrom 0 0 rest).map fun arcs => head.toNat / 40 :: head.toNat % 40 :: arcs
    else none

/-- The identifier with these content octets: 3 to 39 of them, and arcs that can be read. -/
def ofContent? (content : Bytes) : Option Oid :=
  if 3 ≤ content.length && content.length ≤ 39 && (arcs? content).isSome then some ⟨content⟩
  else none

/-- The arcs in decimal with points between them. -/
def dotted (oid : Oid) : String :=
  ".".intercalate (((arcs? oid.content).getD []).map toString)

/-- A decimal numeral without sign and without a needless zero. -/
def decimal? (text : String) : Option Nat :=
  match text.toList with
  | [] => none
  | '0' :: _ :: _ => none
  | digits => if digits.all Char.isDigit then text.toNat? else none

/-- The identifier that a dotted text names. -/
def ofDotted? (text : String) : Option Oid := do
  let arcs ← (text.splitOn ".").mapM decimal?
  match arcs with
  | first :: second :: rest =>
    if first ≤ 2 && second < 40 && rest.all (· < 268435456) then
      ofContent? (ofArcs first second rest).content
    else none
  | _ => none

end Oid

end JarSigners.Asn1
