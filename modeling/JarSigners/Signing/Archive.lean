import JarSigners.Archive.File
import JarSigners.Signing.Block
import JarSigners.Zip.Writer

/-!
# Signing archives

Signing brings the digests in the manifest up to date, makes a signature file from the manifest
and a block from the signature file. Signatures by others are kept; an earlier one under the
same short name is replaced.
-/

set_option autoImplicit false

namespace JarSigners

/-! ### Which entries belong to signatures -/

namespace EntryName

/-- The endings of names that belong to signatures. -/
def signatureEndings : List String := [".SF", ".RSA", ".DSA", ".EC"]

/-- Whether a name is that of a signature file or block: right in the metadata directory, with
one of the endings or the beginning `SIG-`, all in any case. -/
def belongsToSignature (name : String) : Bool :=
  let capitals := name.toList.map Char.toUpper
  metadataDirectory.toList.isPrefixOf capitals &&
    let file := capitals.drop metadataDirectory.toList.length
    !file.contains '/' &&
      ("SIG-".toList.isPrefixOf file ||
        signatureEndings.any fun ending => ending.toList.isSuffixOf file)

/-- Whether a name is that of the manifest, in any case. -/
def isManifest (name : String) : Bool :=
  Text.alike name manifest

end EntryName

namespace Signer

/-- The name of a signer's files without their endings. -/
def stem (s : Signer) : String :=
  EntryName.metadataDirectory ++ Text.capitals s.keyName

def signatureFileName (s : Signer) : String :=
  s.stem ++ ".SF"

def blockName (s : Signer) : String :=
  s.stem ++ "." ++ s.key.kind.blockEnding

/-- Whether a name is that of a signer's own files, whatever the ending. -/
def owns (s : Signer) (name : String) : Bool :=
  Text.alike name s.signatureFileName ||
    match Text.cutAtLast '.' name.toList with
    | some (before, _) => Text.alikeChars before s.stem.toList
    | none => false

end Signer

/-! ### The signature file -/

namespace ManifestDraft

/-- The key under which digests of entries are stated. -/
def digestKey : String := "SHA-256-Digest"

/-- A digest as it is stated. -/
def stated (octets : Bytes) : String :=
  SigningKey.digestAlgorithm.stated octets

/-- The signature file that signs all of a manifest. -/
def signatureFile (d : ManifestDraft) : ManifestDraft where
  main :=
    [("Signature-Version", "1.0"),
     ("SHA-256-Digest-Manifest-Main-Attributes", stated d.mainOctets),
     ("SHA-256-Digest-Manifest", stated d.encode),
     ("Created-By", creator)]
  sections := d.sectionOctets.map fun (name, octets) => (name, [(digestKey, stated octets)])

end ManifestDraft

namespace ArchiveDraft

/-- The manifest of an archive, or a new one. -/
def manifest (draft : ArchiveDraft) : ManifestDraft :=
  match (draft.find? fun e => EntryName.isManifest e.name).bind DraftEntry.content with
  | some octets => .read octets
  | none => .initial

/-- State the digest of an entry, unless it is a directory or belongs to a signature. -/
def stateDigest (m : ManifestDraft) (e : DraftEntry) : ManifestDraft :=
  match e.content with
  | none => m
  | some content =>
    if EntryName.isManifest e.name || EntryName.belongsToSignature e.name then m
    else m.set e.name ManifestDraft.digestKey (ManifestDraft.stated content)

/-- The manifest with the digests of all entries. -/
def currentManifest (draft : ArchiveDraft) : ManifestDraft :=
  draft.foldl stateDigest draft.manifest

/-- The signatures of others. -/
def otherSignatures (draft : ArchiveDraft) (s : Signer) : List DraftEntry :=
  draft.filter fun e => EntryName.belongsToSignature e.name && !s.owns e.name

/-- What belongs to no signature. -/
def unsignedPart (draft : ArchiveDraft) : List DraftEntry :=
  draft.filter fun e => !EntryName.isManifest e.name && !EntryName.belongsToSignature e.name

/-- Sign an archive: the manifest comes first, then the signatures, then everything else. -/
def sign (draft : ArchiveDraft) (s : Signer) : ArchiveDraft :=
  let m := draft.currentManifest
  let signatureFile := m.signatureFile.encode
  [.file EntryName.manifest m.encode] ++ draft.otherSignatures s ++
    [.file s.signatureFileName signatureFile, .file s.blockName (s.block false signatureFile)] ++
    draft.unsignedPart

end ArchiveDraft

/-! ### Files -/

/-- What a change leaves behind, and whether it was carried out. -/
structure FileChange where
  file : FileState
  result : Except DraftError Unit

namespace FileState

/-- The draft of the archive in a file. -/
def draft (file : FileState) : Except DraftError ArchiveDraft :=
  match file.entries with
  | .ok entries => ArchiveDraft.ofEntries entries
  | .error .noFile => .error .unreadable
  | .error _ => .error .notArchive

/-- Write an archive. The entries before one that is refused are kept. -/
def write (draft : ArchiveDraft) : FileChange :=
  let written := FileState.octets (Zip.encode (draft.writable []))
  match draft.refusal? [] with
  | some failure => ⟨written, .error failure⟩
  | none => ⟨written, .ok ()⟩

/-- Read an archive and write it back changed. -/
def changed (file : FileState) (change : ArchiveDraft → ArchiveDraft) : FileChange :=
  match file.draft with
  | .ok draft => write (change draft)
  | .error e => ⟨file, .error e⟩

/-- Put a new archive in the place of the file. -/
def create (entries : List DraftEntry) : FileChange :=
  write (.create entries)

def update (file : FileState) (entries : List DraftEntry) : FileChange :=
  file.changed fun draft => draft.update entries

def sign (file : FileState) (s : Signer) : FileChange :=
  file.changed fun draft => draft.sign s

/-- Add one to every octet of the first occurrence of a pattern. -/
def corrupted? (pattern octets : Bytes) : Option Bytes :=
  (Bytes.firstOccurrence? pattern octets).map fun i =>
    octets.take i ++ ((octets.drop i).take pattern.length).map (· + 1) ++
      octets.drop (i + pattern.length)

/-- Damage a file at the first occurrence of a pattern. -/
def corrupt (file : FileState) (pattern : Bytes) : FileChange :=
  match file.content? with
  | none => ⟨file, .error .unreadable⟩
  | some content =>
    match corrupted? pattern content with
    | some damaged => ⟨.octets damaged, .ok ()⟩
    | none => ⟨file, .error (.notFound pattern)⟩

end FileState

end JarSigners
