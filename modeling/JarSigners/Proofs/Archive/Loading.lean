import JarSigners.Archive.Reader
import JarSigners.Proofs.Archive.Pairing
import JarSigners.Proofs.Archive.Payload
import JarSigners.Proofs.Steps

/-!
# Loading the signatures

Loading is a list of steps: the manifest is read and parsed, and then for each paired block the
signature file is read and parsed, the block is read, its signatures are checked, and the
signature file is held against the manifest. Loading succeeds if no step fails, and otherwise
it fails as the first step that does (`failure?_verifySignatures`). Entries that take no part
in these steps are never read: their payloads do not matter (`verifySignatures_replace`).
-/

set_option autoImplicit false

namespace JarSigners

/-! ### Steps in order -/

/-- A step of loading. Steps on a block come with the block. -/
inductive LoadStep where
  | readManifest
  | parseManifest
  | readSignatureFile (p : PairedBlock)
  | parseSignatureFile (p : PairedBlock)
  | readBlock (p : PairedBlock)
  | verifyBlock (p : PairedBlock)
  | signNames (p : PairedBlock)
  deriving DecidableEq, Repr

/-- The signature file of a block, if it can be read and parsed. -/
def PairedBlock.file? (limit : UInt64) (p : PairedBlock) : Option SignatureFile :=
  (p.signatureFile.metadataOctets limit).toOption.bind fun bytes =>
    (SignatureFile.read p.signatureFile.name bytes).toOption

namespace LoadStep

/-- The steps of one block. -/
def ofBlock (p : PairedBlock) : List LoadStep :=
  [readSignatureFile p, parseSignatureFile p, readBlock p, verifyBlock p, signNames p]

/-- The steps of an archive with these paired blocks. -/
def all (blocks : List PairedBlock) : List LoadStep :=
  readManifest :: parseManifest :: blocks.flatMap ofBlock

/-- Why a step fails on an archive with this manifest entry. A step that lacks what an earlier
step should have read is not one that fails. -/
def failure? (limit : UInt64) (manifest : Entry) : LoadStep → Option ReadError
  | readManifest => Steps.failure? (manifest.metadataOctets limit)
  | parseManifest => do
    let bytes ← (manifest.metadataOctets limit).toOption
    Steps.failure? (untrusted (Manifest.read manifest.name bytes))
  | readSignatureFile p => Steps.failure? (p.signatureFile.metadataOctets limit)
  | parseSignatureFile p => do
    let bytes ← (p.signatureFile.metadataOctets limit).toOption
    Steps.failure? (untrusted (SignatureFile.read p.signatureFile.name bytes))
  | readBlock p => Steps.failure? (p.block.metadataOctets limit)
  | verifyBlock p => do
    let file ← p.file? limit
    let block ← (p.block.metadataOctets limit).toOption
    Steps.failure?
      (untrusted (SignatureBlock.chains ⟨p.block.name, file.name, file.bytes⟩ block))
  | signNames p => do
    let found ← (JarSigners.readManifest limit manifest).toOption
    let file ← p.file? limit
    Steps.failure? (untrusted (file.coveredNames found))

/-- The first failure among some steps. -/
def firstFailure? (limit : UInt64) (manifest : Entry) (steps : List LoadStep) :
    Option ReadError :=
  steps.findSome? (failure? limit manifest)

/-- The steps of the manifest fail as reading the manifest does. -/
theorem firstFailure?_manifest (limit : UInt64) (manifest : Entry) :
    firstFailure? limit manifest [readManifest, parseManifest] =
      Steps.failure? (JarSigners.readManifest limit manifest) := by
  simp only [firstFailure?, List.findSome?_cons, List.findSome?_nil, failure?,
    JarSigners.readManifest]
  cases manifest.metadataOctets limit with
  | error e => simp
  | ok bytes => cases hread : Manifest.read manifest.name bytes <;> simp [hread]

/-- The steps of a block fail as the block does. -/
theorem firstFailure?_ofBlock {limit : UInt64} {manifest : Entry} {m : Manifest}
    (hmanifest : JarSigners.readManifest limit manifest = .ok m) (p : PairedBlock) :
    firstFailure? limit manifest (ofBlock p) = Steps.failure? (p.signed limit m) := by
  simp only [firstFailure?, ofBlock, List.findSome?_cons, List.findSome?_nil, failure?,
    hmanifest, PairedBlock.file?, PairedBlock.signed, PairedBlock.verified]
  cases p.signatureFile.metadataOctets limit with
  | error e => simp
  | ok bytes =>
    cases hfile : SignatureFile.read p.signatureFile.name bytes with
    | error failure => simp [hfile]
    | ok file =>
      cases p.block.metadataOctets limit with
      | error e => simp [hfile]
      | ok block =>
        cases hchains : SignatureBlock.chains ⟨p.block.name, file.name, file.bytes⟩ block with
        | error failure => simp [hfile, hchains]
        | ok chains => cases hnames : file.coveredNames m <;> simp [hfile, hchains, hnames]

theorem firstFailure?_append (limit : UInt64) (manifest : Entry) (steps more : List LoadStep) :
    firstFailure? limit manifest (steps ++ more) =
      (firstFailure? limit manifest steps).or (firstFailure? limit manifest more) := by
  simp [firstFailure?, List.findSome?_append]

/-- The steps of some blocks fail as the first block that fails. -/
theorem firstFailure?_blocks {limit : UInt64} {manifest : Entry} {m : Manifest}
    (hmanifest : JarSigners.readManifest limit manifest = .ok m) (blocks : List PairedBlock) :
    firstFailure? limit manifest (blocks.flatMap ofBlock) =
      Steps.failure? (blocks.mapM (PairedBlock.signed limit m)) := by
  rw [Steps.failure?_mapM]
  induction blocks with
  | nil => rfl
  | cons p rest ih =>
    rw [List.flatMap_cons, firstFailure?_append, firstFailure?_ofBlock hmanifest, ih,
      List.findSome?_cons]
    cases Steps.failure? (p.signed limit m) <;> rfl

end LoadStep

/-! ### What loading comes to -/

/-- The signatures of an archive with this manifest, from what its blocks sign. -/
def Signatures.ofBlocks (m : Manifest) (found : List (List Chain × List String)) : Signatures :=
  { found.foldl (fun s block => s.addBlock block.1 block.2) Signatures.none with
    manifest := some m }

theorem verifyBlocks_eq (limit : UInt64) (m : Manifest) (blocks : List PairedBlock) :
    verifyBlocks limit m blocks =
      (blocks.mapM (PairedBlock.signed limit m)).map (Signatures.ofBlocks m) := by
  have hgather := Steps.foldlM_eq_map_mapM (PairedBlock.signed limit m)
    (fun s found => Signatures.addBlock s found.1 found.2) blocks Signatures.none
  rw [verifyBlocks, hgather]
  cases blocks.mapM (PairedBlock.signed limit m) <;> rfl

/-- With a manifest and a paired block, loading reads the one and verifies the others. -/
theorem verifySignatures_eq_bind {entries : List Entry} {manifest : Entry}
    (hmanifest : entryNamed? entries EntryName.manifest = some manifest)
    (hpaired : pairedBlocks entries ≠ []) (limit : UInt64) :
    verifySignatures entries limit =
      readManifest limit manifest >>= fun m => verifyBlocks limit m (pairedBlocks entries) := by
  unfold verifySignatures
  split
  next hnil => exact absurd hnil hpaired
  next hnone _ => exact absurd (hnone.symm.trans hmanifest) (by simp)
  next found hfound _ =>
    cases hfound.symm.trans hmanifest
    rfl

/-- Without a manifest or a paired block there are no signatures. -/
theorem verifySignatures_eq_none {entries : List Entry} (limit : UInt64)
    (h : pairedBlocks entries = [] ∨ entryNamed? entries EntryName.manifest = none) :
    verifySignatures entries limit = .ok .none := by
  unfold verifySignatures
  split
  next => rfl
  next => rfl
  next found hfound hne =>
    rcases h with hnil | hnone
    · exact absurd hnil hne
    · exact absurd (hnone.symm.trans hfound) (by simp)

/-- Loading fails as the first of its steps that does. -/
theorem failure?_verifySignatures {entries : List Entry} {manifest : Entry}
    (hmanifest : entryNamed? entries EntryName.manifest = some manifest)
    (hpaired : pairedBlocks entries ≠ []) (limit : UInt64) :
    Steps.failure? (verifySignatures entries limit) =
      LoadStep.firstFailure? limit manifest (LoadStep.all (pairedBlocks entries)) := by
  have hsteps : LoadStep.all (pairedBlocks entries) =
      [.readManifest, .parseManifest] ++ (pairedBlocks entries).flatMap LoadStep.ofBlock := rfl
  rw [verifySignatures_eq_bind hmanifest hpaired, hsteps, LoadStep.firstFailure?_append,
    LoadStep.firstFailure?_manifest]
  cases hread : readManifest limit manifest with
  | error e => simp
  | ok m =>
    rw [LoadStep.firstFailure?_blocks hread]
    simp [verifyBlocks_eq, Steps.failure?_map]

theorem readManifest_eq_ok_iff {limit : UInt64} {e : Entry} {m : Manifest} :
    readManifest limit e = .ok m ↔
      ∃ bytes, e.metadataOctets limit = .ok bytes ∧ Manifest.read e.name bytes = .ok m := by
  simp only [readManifest, Steps.bind_eq_ok_iff, untrusted_eq_ok_iff]

namespace PairedBlock

theorem verified_eq_ok_iff {limit : UInt64} {p : PairedBlock} {file : SignatureFile}
    {chains : List Chain} :
    p.verified limit = .ok (file, chains) ↔
      ∃ bytes block, p.signatureFile.metadataOctets limit = .ok bytes ∧
        SignatureFile.read p.signatureFile.name bytes = .ok file ∧
        p.block.metadataOctets limit = .ok block ∧
        SignatureBlock.chains ⟨p.block.name, file.name, file.bytes⟩ block = .ok chains := by
  simp only [verified, Steps.bind_eq_ok_iff, untrusted_eq_ok_iff]
  constructor
  · rintro ⟨bytes, hbytes, file', hfile, block, hblock, chains', hchains, heq⟩
    cases heq
    exact ⟨bytes, block, hbytes, hfile, hblock, hchains⟩
  · rintro ⟨bytes, block, hbytes, hfile, hblock, hchains⟩
    exact ⟨bytes, hbytes, file, hfile, block, hblock, chains, hchains, rfl⟩

theorem signed_eq_ok_iff {limit : UInt64} {m : Manifest} {p : PairedBlock}
    {chains : List Chain} {names : List String} :
    p.signed limit m = .ok (chains, names) ↔
      ∃ file, p.verified limit = .ok (file, chains) ∧ file.coveredNames m = .ok names := by
  simp only [signed, Steps.bind_eq_ok_iff, untrusted_eq_ok_iff]
  constructor
  · rintro ⟨⟨file, chains'⟩, hverified, names', hnames, heq⟩
    cases heq
    exact ⟨file, hverified, hnames⟩
  · rintro ⟨file, hverified, hnames⟩
    exact ⟨(file, chains), hverified, names, hnames, rfl⟩

end PairedBlock

/-- Loading succeeds if the manifest does and then every paired block. -/
theorem exists_verifySignatures_eq_ok_iff {entries : List Entry} {manifest : Entry}
    (hmanifest : entryNamed? entries EntryName.manifest = some manifest)
    (hpaired : pairedBlocks entries ≠ []) (limit : UInt64) :
    (∃ s, verifySignatures entries limit = .ok s) ↔
      ∃ m, readManifest limit manifest = .ok m ∧
        ∀ p ∈ pairedBlocks entries, ∃ found, p.signed limit m = .ok found := by
  rw [verifySignatures_eq_bind hmanifest hpaired]
  simp only [Steps.bind_eq_ok_iff, verifyBlocks_eq, Steps.map_eq_ok_iff,
    ← Steps.exists_mapM_eq_ok_iff]
  constructor
  · rintro ⟨_, m, hm, found, hfound, _⟩
    exact ⟨m, hm, found, hfound⟩
  · rintro ⟨m, hm, found, hfound⟩
    exact ⟨_, m, hm, found, hfound, rfl⟩

/-! ### One failure for all reads -/

/-- Without signatures at hand a read fails as loading does, whatever entry it is of. -/
theorem SignedArchive.read_eq_error_of_load {a : SignedArchive} {failure : ReadError}
    (hnone : a.signatures = none)
    (hload : verifySignatures a.entries a.limits.metadata = .error failure) {i : Nat}
    (hi : i < a.entries.length) : (a.read i).result = .error failure := by
  rw [read, List.getElem?_eq_getElem hi]
  simp [currentSignatures, hnone, hload]

/-- A paired block that does not stop loading: its signature file reads and parses, it reads
itself, its signatures verify over the signature file, and the signature file accepts the
manifest. -/
def PairedBlock.InOrder (limit : UInt64) (m : Manifest) (p : PairedBlock) : Prop :=
  ∃ bytes file block chains names,
    p.signatureFile.metadataOctets limit = .ok bytes ∧
    SignatureFile.read p.signatureFile.name bytes = .ok file ∧
    p.block.metadataOctets limit = .ok block ∧
    SignatureBlock.chains ⟨p.block.name, file.name, file.bytes⟩ block = .ok chains ∧
    file.coveredNames m = .ok names

theorem PairedBlock.inOrder_iff {limit : UInt64} {m : Manifest} {p : PairedBlock} :
    p.InOrder limit m ↔ ∃ found, p.signed limit m = .ok found := by
  constructor
  · rintro ⟨bytes, file, block, chains, names, hbytes, hfile, hblock, hchains, hnames⟩
    have hverified := verified_eq_ok_iff.2 ⟨bytes, block, hbytes, hfile, hblock, hchains⟩
    exact ⟨(chains, names), signed_eq_ok_iff.2 ⟨file, hverified, hnames⟩⟩
  · rintro ⟨⟨chains, names⟩, hsigned⟩
    obtain ⟨file, hverified, hnames⟩ := signed_eq_ok_iff.1 hsigned
    obtain ⟨bytes, block, hbytes, hfile, hblock, hchains⟩ := verified_eq_ok_iff.1 hverified
    exact ⟨bytes, file, block, chains, names, hbytes, hfile, hblock, hchains, hnames⟩

/-- One bad signature stops an archive that has a manifest and a paired block. Loading succeeds
exactly if the manifest and every paired block are in order; if not, every read fails as the
first step that does; and no payload of a block without a signature file, or of a signature
file without a block, has a part in it. To read within a limit that does not wrap is to have an
intact payload no longer than the limit. -/
theorem loading_stops_at_first_failure {entries : List Entry} {manifest : Entry}
    (hmanifest : entryNamed? entries EntryName.manifest = some manifest)
    (hpaired : pairedBlocks entries ≠ []) (limits : SizeLimits) :
    ((∃ s, verifySignatures entries limits.metadata = .ok s) ↔
      ∃ bytes m, manifest.metadataOctets limits.metadata = .ok bytes ∧
        Manifest.read manifest.name bytes = .ok m ∧
        ∀ p ∈ pairedBlocks entries, p.InOrder limits.metadata m) ∧
    (∀ failure, verifySignatures entries limits.metadata = .error failure ↔
      (LoadStep.all (pairedBlocks entries)).findSome?
        (LoadStep.failure? limits.metadata manifest) = some failure) ∧
    (∀ a : SignedArchive, a.entries = entries → a.limits = limits → a.signatures = none →
      ∀ failure, verifySignatures entries limits.metadata = .error failure →
        ∀ i < entries.length, (a.read i).result = .error failure) ∧
    (∀ before e after payload, entries = before ++ e :: after →
      (EntryName.isBlock e.name = true ∧ signatureFileBeside? entries e = none) ∨
        ((∃ stem, Text.alike e.name (stem ++ ".SF") = true) ∧
          ∀ block ∈ signatureBlocks entries, ∀ file,
            EntryName.signatureFileOf? block.name = some file →
              Text.alike e.name file = false) →
      verifySignatures (before ++ { e with payload } :: after) limits.metadata =
        verifySignatures entries limits.metadata) ∧
    (limits.metadata ≠ wrappingLimit → ∀ (e : Entry) bytes,
      e.metadataOctets limits.metadata = .ok bytes ↔
        e.payload = .octets bytes true ∧ Admits limits.metadata bytes.length) := by
  refine ⟨?_, ?_, ?_, ?_, ?_⟩
  · rw [exists_verifySignatures_eq_ok_iff hmanifest hpaired]
    simp only [readManifest_eq_ok_iff, PairedBlock.inOrder_iff]
    constructor
    · rintro ⟨m, ⟨bytes, hbytes, hm⟩, hblocks⟩
      exact ⟨bytes, m, hbytes, hm, hblocks⟩
    · rintro ⟨bytes, m, hbytes, hm, hblocks⟩
      exact ⟨m, ⟨bytes, hbytes, hm⟩, hblocks⟩
  · intro failure
    rw [← Steps.failure?_eq_some_iff, failure?_verifySignatures hmanifest hpaired]
    rfl
  · rintro a rfl rfl hnone failure hload i hi
    exact SignedArchive.read_eq_error_of_load hnone hload hi
  · rintro before e after payload rfl horphan
    have hunused : Uninvolved (before ++ e :: after) e := by
      rcases horphan with ⟨hblock, hnone⟩ | ⟨⟨stem, hname⟩, hnone⟩
      · exact uninvolved_of_orphanBlock hblock hnone
      · exact uninvolved_of_orphanFile hname hnone
    exact verifySignatures_replace payload hunused limits.metadata
  · exact fun hlimit e bytes => Entry.metadataOctets_eq_ok_iff hlimit

/-- A manifest, a signature file, a block that is no message, and a file. -/
def archiveWithDamagedBlock : List Entry :=
  [⟨"META-INF/MANIFEST.MF", .octets [] true⟩, ⟨"META-INF/A.SF", .octets [] true⟩,
   ⟨"META-INF/A.RSA", .octets [0] true⟩, ⟨"a", .octets [] true⟩]

/-- The damaged block fails the file that nobody signed as it fails everything else. -/
theorem archiveWithDamagedBlock_reads_fail :
    entryNamed? archiveWithDamagedBlock EntryName.manifest =
      some ⟨"META-INF/MANIFEST.MF", .octets [] true⟩ ∧
    pairedBlocks archiveWithDamagedBlock ≠ [] ∧
    ∀ i < archiveWithDamagedBlock.length,
      ((SignedArchive.opened archiveWithDamagedBlock).read i).result =
        .error (.untrusted (.invalidBlock "META-INF/A.RSA" .notSignedMessage)) := by
  have hmanifest : entryNamed? archiveWithDamagedBlock EntryName.manifest =
      some ⟨"META-INF/MANIFEST.MF", .octets [] true⟩ := by decide +kernel
  have hpaired : pairedBlocks archiveWithDamagedBlock ≠ [] := by decide +kernel
  obtain ⟨_, hfirst, hreads, _⟩ := loading_stops_at_first_failure hmanifest hpaired .none
  have hfailure := (hfirst (.untrusted (.invalidBlock "META-INF/A.RSA" .notSignedMessage))).2
    (by decide +kernel)
  exact ⟨hmanifest, hpaired, hreads _ rfl rfl rfl _ hfailure⟩

end JarSigners
