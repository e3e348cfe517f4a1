import JarSigners.Toml.Quoted

/-!
# TOML documents

A document is blocks of key-value lines; every block but the first begins with a header. The
grammar is read first, and the blocks are then put together into one table, which is where
repeated keys show. Values nest at most 79 deep, and a dotted key has at most 79 parts.
-/

set_option autoImplicit false

namespace JarSigners.Toml

/-- How deep arrays and inline tables may nest. -/
def nestingLimit : Nat := 79

def isBareKeyChar (c : Char) : Bool :=
  c.isAlphanum || c = '_' || c = '-'

/-- One part of a key. -/
def keyPart : Reader String := fun cs =>
  match cs with
  | '"' :: _ | '\'' :: _ => quotedLine cs
  | _ =>
    let bare := cs.takeWhile isBareKeyChar
    if bare.isEmpty then none else some (String.ofList bare, cs.drop bare.length)

/-- The parts of a dotted key, behind those already read, newest first. -/
def keyParts (done : List String) : (fuel : Nat) → Reader (List String)
  | 0, _ => none
  | fuel + 1, cs => do
    let (part, rest) ← keyPart (skipSpaces cs)
    match skipSpaces rest with
    | '.' :: rest => keyParts (part :: done) fuel rest
    | rest => some ((part :: done).reverse, rest)

/-- A key: the parts that lead to a table, and the last part. -/
def key : Reader (List String × String) := fun cs => do
  let (parts, rest) ← keyParts [] (cs.length + 1) cs
  if parts.length ≤ nestingLimit then
    match parts.getLast? with
    | some last => some ((parts.dropLast, last), rest)
    | none => none
  else none

/-- A comment, if there is one; the line ending is left. -/
def skipComment : List Char → List Char
  | '#' :: rest => rest.dropWhile isPlain
  | cs => cs

/-- Spaces, comments and line endings between the parts of an array. -/
def skipFiller : (fuel : Nat) → List Char → Option (List Char)
  | 0, cs => some cs
  | fuel + 1, cs =>
    match skipSpaces cs with
    | '#' :: rest => do
      let rest ← lineEnd? (rest.dropWhile isPlain)
      skipFiller fuel rest
    | rest =>
      match lineEnd? rest with
      | some rest => skipFiller fuel rest
      | none => some rest

/-- The items of an array and its closing bracket, behind the items already read. -/
def arrayItems (item : Reader Value) (done : List Value) : (fuel : Nat) → Reader Value
  | 0, _ => none
  | fuel + 1, cs => do
    let rest ← skipFiller cs.length cs
    match rest with
    | ']' :: rest => some (.array done.reverse, rest)
    | _ =>
      let (value, rest) ← item rest
      let rest ← skipFiller rest.length rest
      match rest with
      | ',' :: rest => arrayItems item (value :: done) fuel rest
      | ']' :: rest => some (.array (value :: done).reverse, rest)
      | _ => none

/-- A key, an equals sign and a value. -/
def pair (item : Reader Value) : Reader (List String × String × Value) := fun cs => do
  let ((path, last), rest) ← key cs
  let (_, rest) ← mark '=' rest
  let (value, rest) ← item (skipSpaces rest)
  some ((path, last, value), rest)

/-- The pairs of an inline table and its closing brace, behind the pairs already read. -/
def inlinePairs (item : Reader Value) (done : List (List String × String × Value)) :
    (fuel : Nat) → Reader (List (List String × String × Value))
  | 0, _ => none
  | fuel + 1, cs => do
    let (found, rest) ← pair item cs
    match skipSpaces rest with
    | ',' :: rest => inlinePairs item (found :: done) fuel rest
    | '\x7d' :: rest => some ((found :: done).reverse, rest)
    | _ => none

def inlineTable (item : Reader Value) : Reader Value := fun cs =>
  match skipSpaces cs with
  | '\x7d' :: rest => some (.table .inline [], rest)
  | _ => do
    let (pairs, rest) ← inlinePairs item [] cs.length cs
    let entries ← Entries.addAll? [] pairs
    some (.table .inline entries, rest)

/-- A value with at most this much nesting. -/
def value : (depth : Nat) → Reader Value
  | depth, cs =>
    match cs with
    | '"' :: _ | '\'' :: _ => (quoted cs).map fun (text, rest) => (.string text, rest)
    | '[' :: rest =>
      match depth with
      | 0 => none
      | depth + 1 => arrayItems (value depth) [] (rest.length + 1) rest
    | '\x7b' :: rest =>
      match depth with
      | 0 => none
      | depth + 1 => inlineTable (value depth) rest
    | 't' :: 'r' :: 'u' :: 'e' :: rest => some (.boolean true, rest)
    | 'f' :: 'a' :: 'l' :: 's' :: 'e' :: rest => some (.boolean false, rest)
    | c :: _ =>
      if c = '+' || c = '-' || c.isDigit then number cs else specialFloat cs
    | [] => none

/-- Spaces, a comment and the end of the line or of the document. -/
def endLine? (cs : List Char) : Option (List Char) :=
  match skipComment (skipSpaces cs) with
  | [] => some []
  | rest => lineEnd? rest

/-- What opens a block. -/
inductive Heading where
  | start
  | table (path : List String) (last : String)
  | item (path : List String) (last : String)

/-- A heading and the pairs below it. -/
structure Block where
  heading : Heading
  pairs : List (List String × String × Value)

def heading : Reader Heading
  | '[' :: '[' :: rest => do
    let ((path, last), rest) ← key rest
    let (_, rest) ← mark ']' rest
    let (_, rest) ← mark ']' rest
    some (.item path last, rest)
  | '[' :: rest => do
    let ((path, last), rest) ← key rest
    let (_, rest) ← mark ']' rest
    some (.table path last, rest)
  | _ => none

/-- The blocks of a document, behind those already read; `begun` is the block in hand with its
pairs, newest first. -/
def blocks (begun : Block) (done : List Block) : (fuel : Nat) → List Char → Option (List Block)
  | 0, _ => none
  | fuel + 1, cs =>
    let finished := ⟨begun.heading, begun.pairs.reverse⟩ :: done
    match skipSpaces cs with
    | [] => some finished.reverse
    | '[' :: rest => do
      let (opened, rest) ← heading ('[' :: rest)
      let rest ← endLine? rest
      blocks ⟨opened, []⟩ finished fuel rest
    | c :: rest =>
      if c = '#' || c = '\n' || c = '\r' then do
        let rest ← endLine? (c :: rest)
        blocks begun done fuel rest
      else do
        let (found, rest) ← pair (value nestingLimit) (c :: rest)
        let rest ← endLine? rest
        blocks ⟨begun.heading, found :: begun.pairs⟩ done fuel rest

/-- Put a block's pairs where its heading says. -/
def addBlock? (root : Entries) (block : Block) : Option Entries :=
  match block.heading with
  | .start => root.addAll? block.pairs
  | .table path last =>
    root.changeAt? (fun entries =>
      match entries.get? last with
      | none => do
        let inner ← Entries.addAll? [] block.pairs
        some (entries.put last (.table .header inner))
      | some (.table .implied known) => do
        let inner ← Entries.addAll? known block.pairs
        some (entries.put last (.table .header inner))
      | some _ => none) path
  | .item path last =>
    root.changeAt? (fun entries => do
      let inner ← Entries.addAll? [] block.pairs
      match entries.get? last with
      | none => some (entries.put last (.tables [inner]))
      | some (.tables items) => some (entries.put last (.tables (items ++ [inner])))
      | some _ => none) path

/-- A text without the mark that may stand at its beginning. -/
def skipByteOrderMark : List Char → List Char
  | '\uFEFF' :: rest => rest
  | cs => cs

/-- The table a document describes. -/
def read? (text : String) : Option Entries := do
  let cs := skipByteOrderMark text.toList
  let all ← blocks ⟨.start, []⟩ [] (cs.length + 1) cs
  all.foldlM addBlock? []

end JarSigners.Toml
