import JarSigners.Archive.Entry
import JarSigners.Manifest.Draft

/-!
# Making archives

A draft is a list of files and directories to be written. A new archive begins with a
manifest; an update puts entries in the place of those of the same name and behind all others.
No two entries that are written have one name, and writing ends before one that would.
-/

set_option autoImplicit false

namespace JarSigners

/-- A file with its content, or a directory. -/
structure DraftEntry where
  name : String
  content : Option Bytes
  deriving DecidableEq, Repr

/-- Why an archive cannot be made. -/
inductive DraftError where
  /-- There is no file, a payload is damaged, or a content is too large. -/
  | unreadable
  /-- The file is no archive, an entry cannot be opened, or a name is too long. -/
  | notArchive
  | duplicateName (name : String)
  | unknownAttribute (key : String)
  | notFound (pattern : Bytes)
  deriving DecidableEq, Repr

/-- The wording, where it is the program's own. -/
def DraftError.message? : DraftError → Option String
  | unreadable => none
  | notArchive => none
  | duplicateName _ => none
  | unknownAttribute key => some s!"unknown distinguished name attribute {key}"
  | notFound pattern => some s!"{Text.ofUtf8Lenient pattern} not found in archive"

namespace DraftEntry

def file (name : String) (content : Bytes) : DraftEntry :=
  ⟨name, some content⟩

/-- A directory; its name ends with a slash. -/
def directory (name : String) : DraftEntry :=
  ⟨if name.toList.getLast? = some '/' then name else name ++ "/", none⟩

/-- The name that is written. Names of directories have to end like one. -/
def writtenName (e : DraftEntry) : String :=
  match e.content with
  | some _ => e.name
  | none => if EntryName.isDirectory e.name then e.name else e.name ++ "/"

/-- The octets that are written. -/
def writtenContent (e : DraftEntry) : Bytes :=
  e.content.getD []

/-- The entry once it is written. -/
def entry (e : DraftEntry) : Entry :=
  ⟨e.writtenName, .octets e.writtenContent true⟩

/-- The longest name that is written, in octets. -/
def maxName : Nat := 0xFFFF

/-- The largest content that is written. -/
def maxContent : Nat := 0xFFFFFFFF

/-- Why an entry is not written behind entries of these names. -/
def refusal? (names : List String) (e : DraftEntry) : Option DraftError :=
  if names.contains e.writtenName then some (.duplicateName e.writtenName)
  else if maxName < (Text.utf8 e.writtenName).length then some .notArchive
  else if maxContent < e.writtenContent.length then some .unreadable
  else none

/-- The draft of an entry that stands in an archive. -/
def ofEntry (e : Entry) : Except DraftError DraftEntry :=
  match e.payload with
  | .locked => .error .notArchive
  | .octets content intact =>
    if e.isDirectory then .ok ⟨e.name, none⟩
    else if intact then .ok ⟨e.name, some content⟩
    else .error .unreadable

end DraftEntry

/-- The entries of an archive, in order. -/
abbrev ArchiveDraft := List DraftEntry

namespace ArchiveDraft

/-- A new archive: a manifest and some entries. -/
def create (entries : List DraftEntry) : ArchiveDraft :=
  .file EntryName.manifest ManifestDraft.initial.encode :: entries

/-- Put an entry in the place of the first one with its name, or behind all others. -/
def replace (e : DraftEntry) : ArchiveDraft → ArchiveDraft
  | [] => [e]
  | old :: rest => if old.name = e.name then e :: rest else old :: replace e rest

/-- Replace or add entries one after the other. -/
def update (draft : ArchiveDraft) (entries : List DraftEntry) : ArchiveDraft :=
  entries.foldl (fun draft e => draft.replace e) draft

/-- The draft of an archive with these entries. -/
def ofEntries (entries : List Entry) : Except DraftError ArchiveDraft :=
  entries.mapM DraftEntry.ofEntry

/-- The entries that are written: those before the first that is refused. -/
def writable (names : List String) : ArchiveDraft → ArchiveDraft
  | [] => []
  | e :: rest =>
    match e.refusal? names with
    | some _ => []
    | none => e :: writable (e.writtenName :: names) rest

/-- Why the first entry is refused that is not written. -/
def refusal? (names : List String) : ArchiveDraft → Option DraftError
  | [] => none
  | e :: rest =>
    match e.refusal? names with
    | some failure => some failure
    | none => refusal? (e.writtenName :: names) rest

/-- The entries of the archive once it is written. -/
def entries (draft : ArchiveDraft) : List Entry :=
  (draft.writable []).map DraftEntry.entry

end ArchiveDraft

end JarSigners
