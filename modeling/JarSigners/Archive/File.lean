import JarSigners.Archive.Reader
import JarSigners.Zip.Directory

/-!
# Archives as files

What a path leads to decides whether there is an archive to read: where there is no file the
path is at fault, and where there is something that is no archive the archive is.
-/

set_option autoImplicit false

namespace JarSigners

/-- What a path leads to. -/
inductive FileState where
  | missing
  | directory
  | octets (content : Bytes)
  deriving DecidableEq, Repr

/-- The octets of a file, if there is one. -/
def FileState.content? : FileState → Option Bytes
  | octets content => some content
  | missing => none
  | directory => none

/-- The entries of an archive held in memory. -/
def archiveEntries (content : Bytes) : Except ReadError (List Entry) :=
  match Zip.entries? content with
  | some entries => .ok entries
  | none => .error .notArchive

/-- The entries of the archive that a path leads to. -/
def FileState.entries : FileState → Except ReadError (List Entry)
  | missing => .error .noFile
  | directory => .error .notArchive
  | octets content => archiveEntries content

end JarSigners
