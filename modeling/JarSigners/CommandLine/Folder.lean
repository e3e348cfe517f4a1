import JarSigners.Archive.File

/-!
# Paths within a folder

Named contents stand for a folder of files. A path leads to a file by its parts; empty parts
and single dots lead nowhere else. Paths out of the folder lead to directories or to nothing.
-/

set_option autoImplicit false

namespace JarSigners

/-- Names of files, which may have several parts, and what the files hold. -/
abbrev Folder := List (String × Bytes)

namespace Folder

/-- The parts of a path. -/
def parts (path : String) : List String :=
  (path.splitOn "/").filter fun part => part ≠ "" && part ≠ "."

/-- Whether a path can only lead to a directory. -/
def namesDirectory (path : String) : Bool :=
  match (path.splitOn "/").getLast? with
  | some last => last = "" || last = "."
  | none => false

/-- What a path leads to. -/
def find (folder : Folder) (path : String) : FileState :=
  let wanted := parts path
  if path.isEmpty then .missing
  else if wanted.all (· = "..") then .directory
  else if path.startsWith "/" then .missing
  else
    match folder.find? fun (name, _) => parts name = wanted with
    | some (_, content) => if namesDirectory path then .missing else .octets content
    | none =>
      if folder.any fun (name, _) => wanted.isPrefixOf (parts name) then .directory else .missing

end Folder

end JarSigners
