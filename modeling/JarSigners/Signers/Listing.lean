import JarSigners.Archive.File
import JarSigners.Signers.Shared

/-!
# What is told about the signers

The signers of an archive file, and three views of them: sorted by name, the keys sorted by
their digests, and the certificates in the order of the signers. A view fails as the collection
of the signers does.
-/

set_option autoImplicit false

namespace JarSigners

namespace SignerListing

/-- Signers sorted by display name; those with equal names keep their order. -/
def parties (signers : List Chain) : List Chain :=
  signers.mergeSort fun a b => decide (a.displayName ≤ b.displayName)

/-- What a public key is known by. -/
def keyFingerprint (key : Bytes) : Bytes :=
  Digest.sha256.digest key

/-- The keys of signers, sorted by fingerprint. -/
def keys (signers : List Chain) : List Bytes :=
  (signers.map Chain.publicKey).mergeSort fun a b =>
    Bytes.atMost (keyFingerprint a) (keyFingerprint b)

/-- The signers' own certificates. -/
def certificates (signers : List Chain) : List Certificate :=
  signers.map Chain.leaf

end SignerListing

/-- The signers of an archive file in the order they came, or why they cannot be told, and what
was said meanwhile. -/
structure Listing where
  result : Except SignersError (List Chain)
  warnings : List Warning

namespace Listing

/-- The listing of what a collection found. -/
def ofOutcome (outcome : SharedOutcome) : Listing :=
  ⟨outcome.result.map SignerSet.signers, outcome.warnings⟩

/-- The signers of the archive with the given entries, if it could be opened. -/
def ofEntries (limits : SizeLimits) : Except ReadError (List Entry) → Listing
  | .error e => ⟨.error (.archive e), []⟩
  | .ok entries => .ofOutcome (sharedSigners entries limits)

/-- The signers of the archive that a path leads to. -/
def ofFile (limits : SizeLimits) (file : FileState) : Listing :=
  .ofEntries limits file.entries

/-- The signers of an archive held in memory. -/
def ofBytes (limits : SizeLimits) (content : Bytes) : Listing :=
  .ofEntries limits (archiveEntries content)

/-- A view of the signers, as far as they could be told. -/
def view {α : Type} (l : Listing) (f : List Chain → α) : Except SignersError α :=
  l.result.map f

end Listing

end JarSigners
