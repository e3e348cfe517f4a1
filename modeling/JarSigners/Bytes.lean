/-!
# Octet strings

Everything that is hashed, signed or parsed here is a list of octets. This module holds the
big- and little-endian numerals written with them and their hexadecimal text.
-/

set_option autoImplicit false

namespace JarSigners

/-- A string of octets. -/
abbrev Bytes := List UInt8

namespace Bytes

/-- The octets of an ASCII text; used for literals only. -/
def ofAscii (text : String) : Bytes :=
  text.toList.map fun c => c.toNat.toUInt8

/-- The number a big-endian string of octets stands for. -/
def toNatBE (bytes : Bytes) : Nat :=
  bytes.foldl (fun n b => n * 256 + b.toNat) 0

/-- The number a little-endian string of octets stands for. -/
def toNatLE (bytes : Bytes) : Nat :=
  bytes.foldr (fun b n => n * 256 + b.toNat) 0

/-- The `width` low octets of a number, most significant first. -/
def ofNatBE : (width : Nat) → Nat → Bytes
  | 0, _ => []
  | width + 1, n => ofNatBE width (n / 256) ++ [(n % 256).toUInt8]

/-- The `width` low octets of a number, least significant first. -/
def ofNatLE : (width : Nat) → Nat → Bytes
  | 0, _ => []
  | width + 1, n => (n % 256).toUInt8 :: ofNatLE width (n / 256)

/-- The shortest big-endian string for a number; zero has no octets. -/
def ofNat (n : Nat) : Bytes :=
  if n = 0 then [] else ofNatBE (n.log2 / 8 + 1) n

/-- Order by the first octet that differs; a proper beginning comes first. -/
def atMost (a b : Bytes) : Bool :=
  decide (a ≤ b)

theorem length_ofNatBE (width n : Nat) : (ofNatBE width n).length = width := by
  induction width generalizing n with
  | zero => rfl
  | succ width ih => simp [ofNatBE, ih]

theorem length_ofNatLE (width n : Nat) : (ofNatLE width n).length = width := by
  induction width generalizing n with
  | zero => rfl
  | succ width ih => simp [ofNatLE, ih]

/-- The two hexadecimal digits of an octet, from the given sixteen. -/
def hexPair (digits : List Char) (b : UInt8) : List Char :=
  [digits.getD (b.toNat / 16) '0', digits.getD (b.toNat % 16) '0']

/-- Hexadecimal text with small letters. -/
def hex (bytes : Bytes) : String :=
  String.ofList (bytes.flatMap (hexPair "0123456789abcdef".toList))

/-- Hexadecimal text with capitals. -/
def hexCapital (bytes : Bytes) : String :=
  String.ofList (bytes.flatMap (hexPair "0123456789ABCDEF".toList))

/-- Where a pattern first occurs. -/
def firstOccurrence? (pattern : Bytes) (bytes : Bytes) : Option Nat :=
  (List.range (bytes.length + 1 - pattern.length)).find? fun i =>
    pattern.isPrefixOf (bytes.drop i)

end Bytes

end JarSigners
