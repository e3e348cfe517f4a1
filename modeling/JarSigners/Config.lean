import JarSigners.Text.Utf8
import JarSigners.Toml.Document

/-!
# Configured limits

A configuration states how large a content entry and a metadata entry may be; zero stands for
no limit. A stated metadata limit must not be looser than the content limit, and one that is
not stated is 16 MiB or the content limit, whichever is tighter.
-/

set_option autoImplicit false

namespace JarSigners

/-- The largest payloads that are read, in octets; zero is no limit. -/
structure SizeLimits where
  entry : UInt64
  metadata : UInt64
  deriving DecidableEq, Repr

def SizeLimits.none : SizeLimits := ⟨0, 0⟩

/-- 256 MiB. -/
def defaultEntryLimit : UInt64 := 268435456

/-- 16 MiB. -/
def defaultMetadataLimit : UInt64 := 16777216

structure Config where
  entryLimit : UInt64
  metadataLimit? : Option UInt64
  deriving DecidableEq, Repr

inductive ConfigDefect where
  | unreadable
  | notToml
  | looseMetadataLimit (metadata entry : UInt64)
  deriving DecidableEq, Repr

/-- The wording, where it is the program's own. -/
def ConfigDefect.message? : ConfigDefect → Option String
  | unreadable => none
  | notToml => none
  | looseMetadataLimit metadata entry =>
    some s!"Validation error: max_metadata_bytes ({metadata}) must not exceed max_entry_bytes ({entry})"

namespace Config

def default : Config := ⟨defaultEntryLimit, none⟩

/-- The metadata limit in force. -/
def metadataInForce (c : Config) : UInt64 :=
  match c.metadataLimit? with
  | some limit => limit
  | none => if c.entryLimit = 0 then defaultMetadataLimit else min defaultMetadataLimit c.entryLimit

def limits (c : Config) : SizeLimits :=
  ⟨c.entryLimit, c.metadataInForce⟩

/-- A stated metadata limit is no looser than a content limit. -/
def validate (c : Config) : Except ConfigDefect Config :=
  match c.metadataLimit? with
  | none => .ok c
  | some metadata =>
    if c.entryLimit ≠ 0 ∧ (metadata = 0 ∨ c.entryLimit < metadata) then
      .error (.looseMetadataLimit metadata c.entryLimit)
    else .ok c

/-- A size: an integer that is not negative. -/
def size? : Toml.Value → Option UInt64
  | .integer n => if 0 ≤ n then some n.toNat.toUInt64 else none
  | _ => none

/-- Read a size that may be left out. -/
def optionalSize? : Option Toml.Value → Option (Option UInt64)
  | none => some none
  | some value => (size? value).map some

/-- A configuration from its two sizes, where they are given. -/
def ofSizes? (entry metadata : Option Toml.Value) : Option Config := do
  let entry ← optionalSize? entry
  let metadata ← optionalSize? metadata
  some ⟨entry.getD defaultEntryLimit, metadata⟩

/-- The limits a value states: a table by its keys, an array by position. A date has neither
key. -/
def ofLimits? : Toml.Value → Option Config
  | .table _ entries =>
    ofSizes? (Toml.Entries.get? entries "max_entry_bytes")
      (Toml.Entries.get? entries "max_metadata_bytes")
  | .array items => ofSizes? items[0]? items[1]?
  | .tables items =>
    ofSizes? ((items[0]?).map (Toml.Value.table .header))
      ((items[1]?).map (Toml.Value.table .header))
  | .dateTime _ => some default
  | _ => none

/-- The configuration a document states; keys it does not know are passed over. -/
def ofEntries? (entries : Toml.Entries) : Option Config :=
  match entries.get? "limits" with
  | none => some default
  | some value => ofLimits? value

/-- Read a configuration and check it. -/
def ofToml (text : String) : Except ConfigDefect Config :=
  match (Toml.read? text).bind ofEntries? with
  | none => .error .notToml
  | some config => config.validate

/-- Read a configuration from the octets of a file, if there is one. -/
def ofFile (content : Option Bytes) : Except ConfigDefect Config :=
  match content.bind Text.ofUtf8? with
  | none => .error .unreadable
  | some text => ofToml text

end Config

end JarSigners
