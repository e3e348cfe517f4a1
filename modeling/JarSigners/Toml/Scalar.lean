import JarSigners.Toml.Value

/-!
# Numbers, dates and times

Each reader takes the longest beginning that has its form, and fails without taking anything
otherwise. Underscores may stand between digits only.
-/

set_option autoImplicit false

namespace JarSigners.Toml

/-- Reads a value from the beginning of some characters. -/
abbrev Reader (α : Type) := List Char → Option (α × List Char)

def isHexDigit (c : Char) : Bool :=
  c.isDigit || ('a' ≤ c && c ≤ 'f') || ('A' ≤ c && c ≤ 'F')

def digitValue (c : Char) : Nat :=
  if c.isDigit then c.toNat - 48
  else if 'a' ≤ c then c.toNat - 87
  else c.toNat - 55

/-- The number some digits stand for. -/
def numeral (base : Nat) (digits : List Char) : Nat :=
  digits.foldl (fun n c => n * base + digitValue c) 0

/-- Digits behind those already read, newest first; a single underscore may come before each
further one. -/
def moreDigits (isDigit : Char → Bool) (done : List Char) : Reader (List Char)
  | '_' :: c :: rest =>
    if isDigit c then moreDigits isDigit (c :: done) rest else none
  | ['_'] => none
  | c :: rest =>
    if isDigit c then moreDigits isDigit (c :: done) rest else some (done.reverse, c :: rest)
  | [] => some (done.reverse, [])

/-- At least one digit. -/
def digits (isDigit : Char → Bool) : Reader (List Char)
  | c :: rest => if isDigit c then moreDigits isDigit [c] rest else none
  | [] => none

/-- The digits before a point or exponent: a zero alone, or a number that begins otherwise. -/
def wholeDigits : Reader (List Char)
  | '0' :: rest => some (['0'], rest)
  | cs => digits Char.isDigit cs

/-- An optional sign: whether it is a minus, and what follows. -/
def sign : List Char → Bool × List Char
  | '-' :: rest => (true, rest)
  | '+' :: rest => (false, rest)
  | rest => (false, rest)

/-- Integers have 64 bits. -/
def inInt64 (n : Int) : Bool :=
  -9223372036854775808 ≤ n && n ≤ 9223372036854775807

def bounded (n : Int) (rest : List Char) : Option (Value × List Char) :=
  if inInt64 n then some (.integer n, rest) else none

/-- Digits behind a marker of the base; no sign is allowed there. -/
def basedInteger (base : Nat) (isDigit : Char → Bool) : Reader Value := fun cs => do
  let (ds, rest) ← digits isDigit cs
  bounded (numeral base ds) rest

def integer : Reader Value
  | '0' :: 'x' :: rest => basedInteger 16 isHexDigit rest
  | '0' :: 'o' :: rest => basedInteger 8 (fun c => '0' ≤ c && c ≤ '7') rest
  | '0' :: 'b' :: rest => basedInteger 2 (fun c => c = '0' || c = '1') rest
  | cs => do
    let (negative, rest) := sign cs
    let (ds, rest) ← wholeDigits rest
    let n : Int := numeral 10 ds
    bounded (if negative then -n else n) rest

/-- Whether `mantissa · 10 ^ exponent` rounds to a double beyond the largest one. Numbers with
fewer than 300 digits before the point do not, numbers with more than 310 do. -/
def exceedsDouble (mantissa : Nat) (exponent : Int) : Bool :=
  if mantissa = 0 then false
  else
    let size := ((Nat.toDigits 10 mantissa).length : Int) + exponent
    if size < 300 then false
    else if size > 310 then true
    else
      let limit := Nat.pow 2 1024 - Nat.pow 2 970
      if 0 ≤ exponent then limit ≤ mantissa * Nat.pow 10 exponent.toNat
      else limit * Nat.pow 10 (-exponent).toNat ≤ mantissa

/-- An exponent: its value and what follows. -/
def exponent : Reader Int
  | c :: rest =>
    if c = 'e' || c = 'E' then do
      let (negative, rest) := sign rest
      let (ds, rest) ← digits Char.isDigit rest
      let n : Int := numeral 10 ds
      some (if negative then -n else n, rest)
    else none
  | [] => none

/-- A fraction, an exponent or both behind the whole digits. -/
def fractionOrExponent : Reader (List Char × Int)
  | '.' :: rest => do
    let (fraction, rest) ← digits Char.isDigit rest
    match exponent rest with
    | some (e, rest) => some ((fraction, e), rest)
    | none =>
      match rest with
      | 'e' :: _ | 'E' :: _ => none
      | _ => some ((fraction, 0), rest)
  | cs => (exponent cs).map fun (e, rest) => (([], e), rest)

def specialFloat : Reader Value
  | 'i' :: 'n' :: 'f' :: rest => some (.float "inf", rest)
  | 'n' :: 'a' :: 'n' :: rest => some (.float "nan", rest)
  | _ => none

/-- The characters read between a place and a later one. -/
def literal (before after : List Char) : String :=
  String.ofList (before.take (before.length - after.length))

/-- A positive number too large for a double is refused; a negative one is not. -/
def float : Reader Value := fun cs =>
  let (negative, unsigned) := sign cs
  match specialFloat unsigned with
  | some found => some found
  | none => do
    let (whole, rest) ← wholeDigits unsigned
    let ((fraction, e), rest) ← fractionOrExponent rest
    let tooLarge := exceedsDouble (numeral 10 (whole ++ fraction)) (e - fraction.length)
    if tooLarge && !negative then none else some (.float (literal cs rest), rest)

/-- Exactly `count` digits, as a number within the bounds. -/
def fixedDigits (count low high : Nat) : Reader Nat := fun cs =>
  let ds := cs.take count
  let n := numeral 10 ds
  if ds.length = count && ds.all Char.isDigit && low ≤ n && n ≤ high then
    some (n, cs.drop count)
  else none

/-- One given character. -/
def mark (c : Char) : Reader Unit
  | d :: rest => if d = c then some ((), rest) else none
  | [] => none

def isLeapYear (year : Nat) : Bool :=
  year % 4 = 0 && (year % 100 ≠ 0 || year % 400 = 0)

def daysInMonth (year month : Nat) : Nat :=
  if month = 2 then if isLeapYear year then 29 else 28
  else if month = 4 || month = 6 || month = 9 || month = 11 then 30
  else 31

def date : Reader Unit := fun cs => do
  let (year, rest) ← fixedDigits 4 0 9999 cs
  let (_, rest) ← mark '-' rest
  let (month, rest) ← fixedDigits 2 1 12 rest
  let (_, rest) ← mark '-' rest
  let (_, rest) ← fixedDigits 2 1 (daysInMonth year month) rest
  some ((), rest)

/-- A time of day; the sixtieth second and a fraction of any length are allowed. -/
def time : Reader Unit := fun cs => do
  let (_, rest) ← fixedDigits 2 0 23 cs
  let (_, rest) ← mark ':' rest
  let (_, rest) ← fixedDigits 2 0 59 rest
  let (_, rest) ← mark ':' rest
  let (_, rest) ← fixedDigits 2 0 60 rest
  match rest with
  | '.' :: c :: more =>
    if c.isDigit then some ((), more.dropWhile Char.isDigit) else some ((), rest)
  | _ => some ((), rest)

/-- The distance from universal time, if there is one. -/
def offset : List Char → Option (List Char)
  | 'Z' :: rest | 'z' :: rest => some rest
  | '+' :: rest | '-' :: rest => do
    let (_, rest) ← fixedDigits 2 0 23 rest
    let (_, rest) ← mark ':' rest
    let (_, rest) ← fixedDigits 2 0 59 rest
    some rest
  | rest => some rest

/-- A date, a time, or both with an optional offset. -/
def dateTime : Reader Value := fun cs =>
  match date cs with
  | none => (time cs).map fun (_, rest) => (.dateTime (literal cs rest), rest)
  | some (_, day) =>
    match day with
    | c :: clock =>
      if c = 'T' || c = 't' || c = ' ' then
        match time clock with
        | some (_, rest) => (offset rest).map fun rest => (.dateTime (literal cs rest), rest)
        | none => some (.dateTime (literal cs day), day)
      else some (.dateTime (literal cs day), day)
    | [] => some (.dateTime (literal cs day), day)

/-- Whether some characters begin like a date, so that they are nothing else. -/
def beginsDate (cs : List Char) : Bool :=
  (cs.take 4).length = 4 && (cs.take 4).all Char.isDigit && (cs.drop 4).head? = some '-'

/-- Anything that begins with a sign or a digit. -/
def number : Reader Value := fun cs =>
  match dateTime cs with
  | some found => some found
  | none =>
    if beginsDate cs then none
    else
      match float cs with
      | some found => some found
      | none => integer cs

end JarSigners.Toml
