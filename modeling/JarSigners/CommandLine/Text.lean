import JarSigners.Signers.Listing

/-!
# Answers as text

Answers are lines of plain text, JSON with two blanks for each level, or certificates as PEM
with 64 characters to a line. A JSON string shows every character as it is, save the quote, the
backslash and control characters.
-/

set_option autoImplicit false

namespace JarSigners.AnswerText

/-- Each item on a line of its own. -/
def lines (items : List String) : String :=
  String.join (items.map (· ++ "\n"))

def hexDigit (n : Nat) : Char :=
  "0123456789abcdef".toList.getD n '0'

/-- A character within a JSON string. -/
def quotedChar (c : Char) : List Char :=
  if c = '"' then ['\\', '"']
  else if c = '\\' then ['\\', '\\']
  else if c = '\n' then ['\\', 'n']
  else if c = '\r' then ['\\', 'r']
  else if c = '\t' then ['\\', 't']
  else if c = '\x08' then ['\\', 'b']
  else if c = '\x0c' then ['\\', 'f']
  else if c.toNat < 32 then
    ['\\', 'u', '0', '0', hexDigit (c.toNat / 16), hexDigit (c.toNat % 16)]
  else [c]

/-- A JSON string. -/
def quoted (text : String) : String :=
  String.ofList ('"' :: (text.toList.flatMap quotedChar ++ ['"']))

/-- Items between brackets, each on a line of its own; without items the brackets alone. -/
def bracketed (depth : Nat) (opening closing : Char) (items : List String) : String :=
  let lineAt (depth : Nat) : String := "\n" ++ String.ofList (List.replicate (2 * depth) ' ')
  let body :=
    if items.isEmpty then ""
    else ",".intercalate (items.map (lineAt (depth + 1) ++ ·)) ++ lineAt depth
  opening.toString ++ body ++ closing.toString

def jsonList (items : List String) : String :=
  bracketed 0 '[' ']' items

/-- An object that is an item of a list. -/
def jsonObject (members : List (String × String)) : String :=
  bracketed 1 '\x7b' '\x7d' (members.map fun (key, value) => quoted key ++ ": " ++ value)

/-- What is told about a signer. -/
def jsonSigner (c : Chain) : String :=
  jsonObject
    [("name", quoted c.displayName),
     ("fingerprint", quoted (Bytes.hex c.fingerprint)),
     ("key_fingerprint", quoted (Bytes.hex (SignerListing.keyFingerprint c.publicKey))),
     ("chain_length", toString c.certificates.length)]

/-- The width of a line of PEM. -/
def pemWidth : Nat := 64

/-- Characters in lines of a given width; `count` is at least the number of lines. -/
def wrapped (width : Nat) : (count : Nat) → List Char → List String
  | 0, _ => []
  | count + 1, text =>
    if text.isEmpty then []
    else String.ofList (text.take width) :: wrapped width count (text.drop width)

/-- A certificate as PEM. -/
def pem (c : Certificate) : String :=
  let text := Base64.encode c.encode
  lines (["-----BEGIN CERTIFICATE-----"] ++ wrapped pemWidth (text.length / pemWidth + 1) text ++
    ["-----END CERTIFICATE-----"])

end JarSigners.AnswerText
