import JarSigners.Archive.Signatures

/-!
# Verified reading

Reading an entry checks its payload against the manifest and says who signed it. The signatures
of the archive are loaded by the first read that gets as far and kept once that succeeded;
after a failure every read tries again. Entries that nobody signed are held to no digest.
-/

set_option autoImplicit false

namespace JarSigners

/-- An open archive: its entries, the limits in force and the signatures once loaded. -/
structure SignedArchive where
  entries : List Entry
  limits : SizeLimits
  signatures : Option Signatures

/-- An entry that was read to its end and agrees with the manifest. -/
structure CheckedEntry where
  name : String
  size : Nat
  signers : List Chain
  deriving DecidableEq, Repr

namespace Signatures

/-- The digests that an entry must have: those of its manifest section, if anyone signed it. -/
def expectedDigests (s : Signatures) (name : String) : List ExpectedDigest :=
  if (s.coverage.signersOf name).isEmpty then []
  else
    match s.manifest with
    | some m => ((m.section? name).map fun found => found.digests "-Digest").getD []
    | .none => []

/-- Whether an entry is signed but counts as unsigned, because the manifest has no digest of it
that can be checked. -/
def isUnchecked (s : Signatures) (name : String) : Bool :=
  !(s.coverage.signersOf name).isEmpty && (s.expectedDigests name).isEmpty

/-- The signers of an entry whose digests agree. -/
def signersOf (s : Signatures) (name : String) : List Chain :=
  if s.isUnchecked name then []
  else (s.coverage.signersOf name).filterMap fun i => s.signers[i]?

/-- Read an entry under these signatures. -/
def checkEntry (s : Signatures) (limit : UInt64) (e : Entry) : Except ReadError CheckedEntry :=
  (e.check limit (s.expectedDigests e.name)).map fun size => ⟨e.name, size, s.signersOf e.name⟩

/-- What is said while an entry is read. -/
def entryWarnings (s : Signatures) (limit : UInt64) (e : Entry) : List Warning :=
  match s.checkEntry limit e with
  | .ok _ => if s.isUnchecked e.name then [.noManifestDigest e.name] else []
  | .error _ => []

end Signatures

/-- The answer to a read, what was said meanwhile, and the archive afterwards. -/
structure ReadOutcome where
  result : Except ReadError CheckedEntry
  warnings : List Warning
  archive : SignedArchive

namespace SignedArchive

/-- An archive that was just opened. -/
def opened (entries : List Entry) : SignedArchive :=
  ⟨entries, .none, none⟩

/-- Put other limits in force for the reads that follow. -/
def limitedTo (a : SignedArchive) (limits : SizeLimits) : SignedArchive :=
  { a with limits }

/-- The signatures, kept or loaded. -/
def currentSignatures (a : SignedArchive) : Except ReadError Signatures :=
  match a.signatures with
  | some s => .ok s
  | none => verifySignatures a.entries a.limits.metadata

/-- What is said on the way to the signatures. -/
def currentWarnings (a : SignedArchive) : List Warning :=
  match a.signatures with
  | some _ => []
  | none => verifyWarnings a.entries a.limits.metadata

/-- Read the entry at an index. -/
def read (a : SignedArchive) (index : Nat) : ReadOutcome :=
  match a.entries[index]? with
  | none => ⟨.error .notArchive, [], a⟩
  | some e =>
    match a.currentSignatures with
    | .error failure => ⟨.error failure, a.currentWarnings, a⟩
    | .ok s =>
      ⟨s.checkEntry a.limits.entry e, a.currentWarnings ++ s.entryWarnings a.limits.entry e,
        { a with signatures := some s }⟩

end SignedArchive

end JarSigners
