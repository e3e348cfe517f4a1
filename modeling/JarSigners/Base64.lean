import JarSigners.Bytes
import JarSigners.Text.Blank

/-!
# Base64

Three octets are written as four of 64 characters; one or two octets at the end are filled
up with `=`. Decoding is strict: the filling must be there, nothing else may be, and the bits
that belong to no octet must be zero. So each octet string has exactly one written form.
-/

set_option autoImplicit false

namespace JarSigners.Base64

/-- The character for six bits. -/
def digit (n : Nat) : Char :=
  if n < 26 then Char.ofNat (65 + n)
  else if n < 52 then Char.ofNat (97 + (n - 26))
  else if n < 62 then Char.ofNat (48 + (n - 52))
  else if n = 62 then '+'
  else '/'

/-- The six bits a character stands for. -/
def value? (c : Char) : Option Nat :=
  let n := c.toNat
  if 65 ≤ n && n ≤ 90 then some (n - 65)
  else if 97 ≤ n && n ≤ 122 then some (n - 97 + 26)
  else if 48 ≤ n && n ≤ 57 then some (n - 48 + 52)
  else if n = 43 then some 62
  else if n = 47 then some 63
  else none

def encode : Bytes → List Char
  | [] => []
  | [a] => [digit (a.toNat / 4), digit (a.toNat % 4 * 16), '=', '=']
  | [a, b] =>
    [digit (a.toNat / 4), digit (a.toNat % 4 * 16 + b.toNat / 16),
      digit (b.toNat % 16 * 4), '=']
  | a :: b :: c :: rest =>
    digit (a.toNat / 4) :: digit (a.toNat % 4 * 16 + b.toNat / 16) ::
      digit (b.toNat % 16 * 4 + c.toNat / 64) :: digit (c.toNat % 64) :: encode rest

def decode? : List Char → Option Bytes
  | [] => some []
  | [w, x, '=', '='] => do
    let w ← value? w
    let x ← value? x
    if x % 16 = 0 then some [(w * 4 + x / 16).toUInt8] else none
  | [w, x, y, '='] => do
    let w ← value? w
    let x ← value? x
    let y ← value? y
    if y % 4 = 0 then some [(w * 4 + x / 16).toUInt8, (x % 16 * 16 + y / 4).toUInt8] else none
  | w :: x :: y :: z :: rest => do
    let w ← value? w
    let x ← value? x
    let y ← value? y
    let z ← value? z
    let more ← decode? rest
    some ((w * 4 + x / 16).toUInt8 :: (x % 16 * 16 + y / 4).toUInt8 ::
      (y % 4 * 64 + z).toUInt8 :: more)
  | _ => none

/-- The written form as a text. -/
def text (bytes : Bytes) : String :=
  String.ofList (encode bytes)

/-- Whether a text, blanks at its ends aside, is the written form of these octets. -/
def spells (written : String) (bytes : Bytes) : Bool :=
  match decode? (Text.trimmed written.toList) with
  | some decoded => decoded == bytes
  | none => false

end JarSigners.Base64
