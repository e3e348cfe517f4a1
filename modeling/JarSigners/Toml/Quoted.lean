import JarSigners.Toml.Scalar

/-!
# Quoted strings

Basic strings have escapes and literal strings have none; three quotes of either kind enclose
a string of several lines. Control characters other than the tab are not allowed.
-/

set_option autoImplicit false

namespace JarSigners.Toml

/-- A character that may stand in a string or a comment. -/
def isPlain (c : Char) : Bool :=
  c = '\t' || (' ' ≤ c && c ≠ '\x7F')

/-- The character that some hexadecimal digits name. -/
def namedChar (count : Nat) : Reader Char := fun cs =>
  let ds := cs.take count
  let n := numeral 16 ds
  if ds.length = count && ds.all isHexDigit && Nat.isValidChar n then
    some (Char.ofNat n, cs.drop count)
  else none

/-- What stands behind a backslash. -/
def escape : Reader Char
  | 'b' :: rest => some ('\x08', rest)
  | 't' :: rest => some ('\t', rest)
  | 'n' :: rest => some ('\n', rest)
  | 'f' :: rest => some ('\x0C', rest)
  | 'r' :: rest => some ('\r', rest)
  | '"' :: rest => some ('"', rest)
  | '\\' :: rest => some ('\\', rest)
  | 'u' :: rest => namedChar 4 rest
  | 'U' :: rest => namedChar 8 rest
  | _ => none

/-- A line ending: LF or CR LF. -/
def lineEnd? : List Char → Option (List Char)
  | '\n' :: rest => some rest
  | '\r' :: '\n' :: rest => some rest
  | _ => none

def isSpace (c : Char) : Bool :=
  c = ' ' || c = '\t'

def skipSpaces (cs : List Char) : List Char :=
  cs.dropWhile isSpace

/-- The rest of a basic string behind its opening quote. -/
def basicBody (done : List Char) : (fuel : Nat) → Reader String
  | 0, _ => none
  | fuel + 1, cs =>
    match cs with
    | '"' :: rest => some (String.ofList done.reverse, rest)
    | '\\' :: rest => do
      let (c, rest) ← escape rest
      basicBody (c :: done) fuel rest
    | c :: rest => if isPlain c then basicBody (c :: done) fuel rest else none
    | [] => none

/-- The rest of a literal string behind its opening quote. -/
def literalBody (done : List Char) : Reader String
  | '\'' :: rest => some (String.ofList done.reverse, rest)
  | c :: rest => if isPlain c then literalBody (c :: done) rest else none
  | [] => none

/-- Blanks and line endings behind a backslash at the end of a line. -/
def skipBlankLines : (fuel : Nat) → List Char → List Char
  | 0, cs => cs
  | fuel + 1, cs =>
    match lineEnd? (skipSpaces cs) with
    | some rest => skipBlankLines fuel rest
    | none => skipSpaces cs

/-- The rest of a string of several lines behind its opening quotes; `quote` is the quote and
`escapes` says whether a backslash means anything. The closing quotes may follow one or two
that belong to the string. -/
def linesBody (quote : Char) (escapes : Bool) (done : List Char) : (fuel : Nat) → Reader String
  | 0, _ => none
  | fuel + 1, cs =>
    let quotes := (cs.takeWhile (· = quote)).length
    if 3 ≤ quotes then
      let own := min (quotes - 3) 2
      some (String.ofList (List.replicate own quote ++ done).reverse, cs.drop (own + 3))
    else
      match lineEnd? cs with
      | some rest => linesBody quote escapes ('\n' :: done) fuel rest
      | none =>
        match cs with
        | [] => none
        | c :: rest =>
          if c = '\\' && escapes then
            match lineEnd? (skipSpaces rest) with
            | some next => linesBody quote escapes done fuel (skipBlankLines fuel next)
            | none => do
              let (c, rest) ← escape rest
              linesBody quote escapes (c :: done) fuel rest
          else if isPlain c then linesBody quote escapes (c :: done) fuel rest
          else none

/-- A line ending right behind the opening quotes does not count. -/
def skipFirstLineEnd (cs : List Char) : List Char :=
  (lineEnd? cs).getD cs

/-- A string on one line. -/
def quotedLine : Reader String
  | '"' :: rest => basicBody [] (rest.length + 1) rest
  | '\'' :: rest => literalBody [] rest
  | _ => none

/-- A string of any kind. -/
def quoted : Reader String
  | '"' :: '"' :: '"' :: rest => linesBody '"' true [] (rest.length + 1) (skipFirstLineEnd rest)
  | '\'' :: '\'' :: '\'' :: rest =>
    linesBody '\'' false [] (rest.length + 1) (skipFirstLineEnd rest)
  | cs => quotedLine cs

end JarSigners.Toml
