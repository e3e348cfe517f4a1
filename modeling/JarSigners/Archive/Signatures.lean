import JarSigners.Archive.Entry
import JarSigners.SignatureBlock
import JarSigners.SignatureFile

/-!
# The signatures of an archive

A signature block counts once it is paired with the signature file of the same stem. All
paired blocks have to be in order: the first step that fails fails them all. The steps are the
manifest, and then block by block the signature file, the block, its signatures, and what
the signature file says about the manifest. What results is the signers and, for every name
that a signature file signs, which of them sign it.
-/

set_option autoImplicit false

namespace JarSigners

/-- A signature block and its signature file. -/
structure PairedBlock where
  block : Entry
  signatureFile : Entry
  deriving DecidableEq, Repr

/-- The signature blocks of an archive, in order. -/
def signatureBlocks (entries : List Entry) : List Entry :=
  entries.filter fun e => EntryName.isBlock e.name

/-- The signature file that belongs to a block, if the archive has it. -/
def signatureFileBeside? (entries : List Entry) (block : Entry) : Option Entry :=
  (EntryName.signatureFileOf? block.name).bind (entryNamed? entries)

/-- The blocks that have a signature file, in order. -/
def pairedBlocks (entries : List Entry) : List PairedBlock :=
  (signatureBlocks entries).filterMap fun block =>
    (signatureFileBeside? entries block).map (PairedBlock.mk block)

/-- What is said about the blocks that have none. -/
def orphanWarnings (entries : List Entry) : List Warning :=
  ((signatureBlocks entries).filter fun block =>
    (signatureFileBeside? entries block).isNone).map fun block => .noSignatureFile block.name

/-- Who signs each name, by position in the list of signers. -/
abbrev Coverage := List (String × List Nat)

namespace Coverage

def signersOf (c : Coverage) (name : String) : List Nat :=
  match c.find? fun known => known.1 = name with
  | some (_, signers) => signers
  | none => []

/-- Add a signer to those of a name, unless it is among them. -/
def add (signer : Nat) (c : Coverage) (name : String) : Coverage :=
  if c.any fun known => known.1 = name then
    c.map fun known =>
      if known.1 = name && !known.2.contains signer then (name, known.2 ++ [signer]) else known
  else c ++ [(name, [signer])]

end Coverage

/-- The verified signatures of an archive. -/
structure Signatures where
  manifest : Option Manifest
  signers : List Chain
  coverage : Coverage
  deriving DecidableEq, Repr

namespace Signatures

def none : Signatures := ⟨.none, [], []⟩

/-- The position of a signer, who is added if new. -/
def position (s : Signatures) (chain : Chain) : Nat × Signatures :=
  match s.signers.idxOf? chain with
  | some known => (known, s)
  | .none => (s.signers.length, { s with signers := s.signers ++ [chain] })

/-- Note that a signer signs these names. -/
def addSigner (names : List String) (s : Signatures) (chain : Chain) : Signatures :=
  let (signer, s) := s.position chain
  { s with coverage := names.foldl (Coverage.add signer) s.coverage }

/-- Note that some signers sign these names. -/
def addBlock (s : Signatures) (chains : List Chain) (names : List String) : Signatures :=
  chains.foldl (addSigner names) s

end Signatures

/-- A security failure met while reading. -/
def untrusted {α : Type} (result : Except TrustFailure α) : Except ReadError α :=
  result.mapError ReadError.untrusted

namespace PairedBlock

/-- The signature file of a block and the signers of the block. -/
def verified (limit : UInt64) (p : PairedBlock) :
    Except ReadError (SignatureFile × List Chain) := do
  let bytes ← p.signatureFile.metadataOctets limit
  let file ← untrusted (SignatureFile.read p.signatureFile.name bytes)
  let block ← p.block.metadataOctets limit
  let chains ← untrusted (SignatureBlock.chains ⟨p.block.name, file.name, file.bytes⟩ block)
  .ok (file, chains)

/-- The signers of a block and the names they sign. -/
def signed (limit : UInt64) (manifest : Manifest) (p : PairedBlock) :
    Except ReadError (List Chain × List String) := do
  let (file, chains) ← p.verified limit
  let names ← untrusted (file.coveredNames manifest)
  .ok (chains, names)

/-- What is said about a block that verifies. -/
def warnings (limit : UInt64) (manifest : Manifest) (p : PairedBlock) : List Warning :=
  match p.verified limit with
  | .ok (file, _) => file.warnings manifest
  | .error _ => []

end PairedBlock

/-- The manifest of an archive, from the entry of that name. -/
def readManifest (limit : UInt64) (e : Entry) : Except ReadError Manifest := do
  let bytes ← e.metadataOctets limit
  untrusted (Manifest.read e.name bytes)

/-- Verify paired blocks against the manifest, one after the other. -/
def verifyBlocks (limit : UInt64) (manifest : Manifest) (blocks : List PairedBlock) :
    Except ReadError Signatures := do
  let found ← blocks.foldlM (fun s p => do
    let (chains, names) ← p.signed limit manifest
    .ok (s.addBlock chains names)) Signatures.none
  .ok { found with manifest := some manifest }

/-- What is said about blocks, up to the first that fails. -/
def blockWarnings (limit : UInt64) (manifest : Manifest) : List PairedBlock → List Warning
  | [] => []
  | p :: rest =>
    p.warnings limit manifest ++
      match p.signed limit manifest with
      | .ok _ => blockWarnings limit manifest rest
      | .error _ => []

/-- The signatures of an archive. Without a paired block or without a manifest there are none,
and the manifest is not read before there is a paired block. -/
def verifySignatures (entries : List Entry) (limit : UInt64) : Except ReadError Signatures :=
  match pairedBlocks entries, entryNamed? entries EntryName.manifest with
  | [], _ => .ok .none
  | _, none => .ok .none
  | blocks, some e => do
    let manifest ← readManifest limit e
    verifyBlocks limit manifest blocks

/-- What is said while the signatures are loaded. -/
def verifyWarnings (entries : List Entry) (limit : UInt64) : List Warning :=
  orphanWarnings entries ++
    match pairedBlocks entries, entryNamed? entries EntryName.manifest with
    | [], _ => []
    | _, none => []
    | blocks, some e =>
      match readManifest limit e with
      | .ok manifest => blockWarnings limit manifest blocks
      | .error _ => []

end JarSigners
