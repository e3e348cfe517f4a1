/-!
# Values of a TOML document

A table remembers how it came to be, because that decides who may still add to it: a table
with a header of its own is complete once its lines end, one that only lies on the way to
another can still get its header, and one made by a dotted key grows by dotted keys alone.
-/

set_option autoImplicit false

namespace JarSigners.Toml

/-- How a table came to be. -/
inductive Origin where
  /-- Written between braces. -/
  | inline
  /-- Opened by a header of its own. -/
  | header
  /-- Lies on the way to another header. -/
  | implied
  /-- Made by a dotted key. -/
  | dotted
  deriving DecidableEq, Repr

inductive Value where
  | string (text : String)
  | integer (n : Int)
  | float (literal : String)
  | boolean (b : Bool)
  | dateTime (literal : String)
  | array (items : List Value)
  | table (origin : Origin) (entries : List (String × Value))
  /-- The tables of repeated double-bracket headers, oldest first. -/
  | tables (items : List (List (String × Value)))

/-- A table's keys and values in order. -/
abbrev Entries := List (String × Value)

namespace Entries

def get? (entries : Entries) (key : String) : Option Value :=
  (entries.find? fun entry => entry.1 = key).map Prod.snd

/-- Put a value in place of the one this key has, or behind all others. -/
def put (entries : Entries) (key : String) (value : Value) : Entries :=
  if entries.any fun entry => entry.1 = key then
    entries.map fun entry => if entry.1 = key then (key, value) else entry
  else entries ++ [(key, value)]

/-- Put a value under a new key. -/
def add? (entries : Entries) (key : String) (value : Value) : Option Entries :=
  if (entries.get? key).isSome then none else some (entries ++ [(key, value)])

/-- Change the last of some tables. -/
def changeLast? (change : Entries → Option Entries) (items : List Entries) :
    Option (List Entries) :=
  match items.getLast? with
  | none => none
  | some last => (change last).map fun last => items.dropLast ++ [last]

/-- Change the table that a header's path leads to. Tables on the way are made as needed, and
of repeated tables the last is entered. -/
def changeAt? (change : Entries → Option Entries) : List String → Entries → Option Entries
  | [], entries => change entries
  | key :: path, entries =>
    match entries.get? key with
    | none => do
      let inner ← changeAt? change path []
      some (entries.put key (.table .implied inner))
    | some (.table .inline _) => none
    | some (.table origin inner) => do
      let inner ← changeAt? change path inner
      some (entries.put key (.table origin inner))
    | some (.tables items) => do
      let items ← changeLast? (changeAt? change path) items
      some (entries.put key (.tables items))
    | some _ => none

/-- Add a value under a dotted key, seen from inside the table that `path` has led to so far;
`grows` says whether a dotted key may put its last part there. -/
def addDotted? (grows : Bool) (key : String) (value : Value) :
    List String → Entries → Option Entries
  | [], entries => if grows then entries.add? key value else none
  | part :: path, entries =>
    match entries.get? part with
    | none => do
      let inner ← addDotted? true key value path []
      some (entries.put part (.table .dotted inner))
    | some (.table .dotted inner) => do
      let inner ← addDotted? true key value path inner
      some (entries.put part (.table .dotted inner))
    | some (.table .implied inner) => do
      let inner ← addDotted? false key value path inner
      some (entries.put part (.table .implied inner))
    | some (.tables items) => do
      let items ← changeLast? (addDotted? false key value path) items
      some (entries.put part (.tables items))
    | some _ => none

/-- Add all keys and values of a table that was just opened. -/
def addAll? (entries : Entries) (pairs : List (List String × String × Value)) :
    Option Entries :=
  pairs.foldlM (fun entries (path, key, value) => addDotted? true key value path entries)
    entries

end Entries

end JarSigners.Toml
