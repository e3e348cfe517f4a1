import JarSigners.Proofs.Archive.Coverage
import JarSigners.Proofs.Archive.Loading
import JarSigners.Signing.Block

/-!
# What a read grants

What an archive says about a name can be told from its entries alone, without the limits and
the table that a reader works with: the manifest, for each paired block the chains it verifies
and the names its signature file signs, and from these a walk over the blocks
(`coveringSigners`) and the digests stated (`statedDigests`). Signatures that load say just
that (`loaded_of_verifySignatures`), and so does a read under them (`read_opened_result`).
-/

set_option autoImplicit false

namespace JarSigners

/-! ### What an archive says about a name -/

/-- The octets of an entry that reads to a proper end. -/
def Entry.octets? (e : Entry) : Option Bytes :=
  match e.payload with
  | .octets content true => some content
  | _ => none

/-- The manifest of an archive, if it has one that reads. -/
def manifest? (entries : List Entry) : Option Manifest := do
  let e ← entryNamed? entries EntryName.manifest
  let bytes ← e.octets?
  (Manifest.read e.name bytes).toOption

namespace PairedBlock

/-- The chains of those who signed the octets of the signature file. -/
def chains? (p : PairedBlock) : Option (List Chain) := do
  let content ← p.signatureFile.octets?
  let block ← p.block.octets?
  (SignatureBlock.chains ⟨p.block.name, p.signatureFile.name, content⟩ block).toOption

/-- The names that the signature file signs in a manifest. -/
def names? (m : Manifest) (p : PairedBlock) : Option (List String) := do
  let bytes ← p.signatureFile.octets?
  let file ← (SignatureFile.read p.signatureFile.name bytes).toOption
  (file.coveredNames m).toOption

/-- The chains that a block brings to a name: all it has if its signature file signs the name. -/
def chainsFor (m : Manifest) (name : String) (p : PairedBlock) : List Chain :=
  match p.chains?, p.names? m with
  | some chains, some names => if name ∈ names then chains else []
  | _, _ => []

end PairedBlock

/-- The chains that sign a name, found block by block; each counts where it first comes. -/
def coveringSigners (entries : List Entry) (name : String) : List Chain :=
  match manifest? entries with
  | some m => SignatureBlock.firsts ((pairedBlocks entries).flatMap (PairedBlock.chainsFor m name))
  | none => []

/-- The digests that the manifest states for a name, in order. -/
def statedDigests (entries : List Entry) (name : String) : List ExpectedDigest :=
  match manifest? entries with
  | some m => ((m.section? name).map fun found => found.digests "-Digest").getD []
  | none => []

/-! ### From what a reader reads to what there is -/

theorem Entry.octets?_eq_some_iff {e : Entry} {bytes : Bytes} :
    e.octets? = some bytes ↔ e.payload = .octets bytes true := by
  unfold octets?
  cases e.payload with
  | locked => simp
  | octets content intact => cases intact <;> simp

theorem Entry.octets?_of_metadataOctets {e : Entry} {limit : UInt64} {bytes : Bytes}
    (hlimit : limit ≠ wrappingLimit) (h : e.metadataOctets limit = .ok bytes) :
    e.octets? = some bytes :=
  octets?_eq_some_iff.2 ((metadataOctets_eq_ok_iff hlimit).1 h).1

/-- A manifest keeps the octets it was read from. -/
theorem Manifest.bytes_of_read {file : String} {bytes : Bytes} {m : Manifest}
    (h : Manifest.read file bytes = .ok m) : m.bytes = bytes := by
  have hparsed : Manifest.ofBytes bytes = .ok m := by
    rw [Manifest.read] at h
    cases hof : Manifest.ofBytes bytes with
    | error defect => simp [hof, Except.mapError] at h
    | ok found => simpa [hof, Except.mapError] using h
  simp only [Manifest.ofBytes, Steps.bind_eq_ok_iff] at hparsed
  obtain ⟨all, _, hnamed⟩ := hparsed
  split at hnamed
  · cases hnamed
    rfl
  · cases hnamed

/-- A signature file keeps its name and the octets it was read from. -/
theorem SignatureFile.name_bytes_of_read {name : String} {bytes : Bytes} {file : SignatureFile}
    (h : SignatureFile.read name bytes = .ok file) : file.name = name ∧ file.bytes = bytes := by
  obtain ⟨m, hm, rfl⟩ := Steps.map_eq_ok_iff.1 h
  exact ⟨rfl, Manifest.bytes_of_read hm⟩

theorem manifest?_of_readManifest {entries : List Entry} {e : Entry} {limit : UInt64}
    {m : Manifest} (hentry : entryNamed? entries EntryName.manifest = some e)
    (hlimit : limit ≠ wrappingLimit) (h : readManifest limit e = .ok m) :
    manifest? entries = some m := by
  obtain ⟨bytes, hbytes, hm⟩ := readManifest_eq_ok_iff.1 h
  simp [manifest?, hentry, Entry.octets?_of_metadataOctets hlimit hbytes, hm]

/-- Nothing is no block. -/
theorem SignatureBlock.chains_nil (ctx : BlockContext) :
    chains ctx [] = .error (.invalidBlock ctx.block .notSignedMessage) := rfl

namespace PairedBlock

/-- A block is not verified under the limit at which it reads as empty. -/
theorem limit_ne_of_signed {limit : UInt64} {m : Manifest} {p : PairedBlock}
    {found : List Chain × List String} (h : p.signed limit m = .ok found) :
    limit ≠ wrappingLimit := by
  rintro rfl
  obtain ⟨file, hverified, _⟩ := signed_eq_ok_iff.1 h
  obtain ⟨_, block, _, _, hblock, hchains⟩ := verified_eq_ok_iff.1 hverified
  rw [Entry.metadataOctets_wrappingLimit hblock, SignatureBlock.chains_nil] at hchains
  cases hchains

/-- What a block is found to sign is what it signs. -/
theorem chains?_names?_of_signed {limit : UInt64} {m : Manifest} {p : PairedBlock}
    {chains : List Chain} {names : List String} (h : p.signed limit m = .ok (chains, names)) :
    p.chains? = some chains ∧ p.names? m = some names := by
  have hlimit := limit_ne_of_signed h
  obtain ⟨file, hverified, hnames⟩ := signed_eq_ok_iff.1 h
  obtain ⟨bytes, block, hbytes, hfile, hblock, hchains⟩ := verified_eq_ok_iff.1 hverified
  obtain ⟨hname, hcontent⟩ := SignatureFile.name_bytes_of_read hfile
  have hbytes' := Entry.octets?_of_metadataOctets hlimit hbytes
  have hblock' := Entry.octets?_of_metadataOctets hlimit hblock
  rw [hname, hcontent] at hchains
  constructor
  · simp [chains?, hbytes', hblock', hchains]
  · simp [names?, hbytes', hfile, hnames]

theorem chainsFor_of_signed {limit : UInt64} {m : Manifest} {p : PairedBlock}
    {found : List Chain × List String} (h : p.signed limit m = .ok found) (name : String) :
    p.chainsFor m name = if name ∈ found.2 then found.1 else [] := by
  obtain ⟨hchains, hnames⟩ := chains?_names?_of_signed h
  rw [chainsFor, hchains, hnames]

theorem mem_chainsFor_iff {m : Manifest} {name : String} {p : PairedBlock} {c : Chain} :
    c ∈ p.chainsFor m name ↔
      ∃ chains names, p.chains? = some chains ∧ c ∈ chains ∧
        p.names? m = some names ∧ name ∈ names := by
  unfold chainsFor
  cases p.chains? with
  | none => simp
  | some chains =>
    cases p.names? m with
    | none => simp
    | some names =>
      by_cases hname : name ∈ names <;> simp [hname]

end PairedBlock

/-- The walk over the blocks finds what the blocks were found to sign. -/
theorem flatMap_chainsFor_eq {limit : UInt64} {m : Manifest} {blocks : List PairedBlock}
    {found : List (List Chain × List String)}
    (h : blocks.mapM (PairedBlock.signed limit m) = .ok found) (name : String) :
    blocks.flatMap (PairedBlock.chainsFor m name) = Signatures.broughtTo name found := by
  have hall := Steps.forall₂_of_mapM_eq_ok h
  clear h
  induction hall with
  | nil => rfl
  | cons hsigned _ ih =>
    rw [List.flatMap_cons, PairedBlock.chainsFor_of_signed hsigned, ih]
    rfl

/-! ### What signatures say once loaded -/

/-- The signatures say about each name what the archive does. -/
structure Signatures.Loaded (entries : List Entry) (s : Signatures) : Prop where
  inRange : ∀ name, ∀ i ∈ s.coverage.signersOf name, i < s.signers.length
  chains : ∀ name, s.coveringChains name = coveringSigners entries name
  manifest : ∀ name, s.coverage.signersOf name ≠ [] → s.manifest = manifest? entries

/-- Without a paired block or without a manifest nobody signs anything. -/
theorem coveringSigners_eq_nil {entries : List Entry}
    (h : pairedBlocks entries = [] ∨ entryNamed? entries EntryName.manifest = none)
    (name : String) : coveringSigners entries name = [] := by
  unfold coveringSigners
  rcases h with hnil | hnone
  · rw [hnil]
    split <;> rfl
  · have hmanifest : manifest? entries = none := by simp [manifest?, hnone]
    rw [hmanifest]

theorem Signatures.loaded_none {entries : List Entry}
    (h : pairedBlocks entries = [] ∨ entryNamed? entries EntryName.manifest = .none) :
    Signatures.none.Loaded entries where
  inRange := by simp [none, Coverage.signersOf]
  chains := fun name => (coveringSigners_eq_nil h name).symm
  manifest := by simp [none, Coverage.signersOf]

theorem Signatures.loaded_ofBlocks {entries : List Entry} {limit : UInt64} {m : Manifest}
    {found : List (List Chain × List String)} (hmanifest : manifest? entries = some m)
    (hfound : (pairedBlocks entries).mapM (PairedBlock.signed limit m) = .ok found) :
    (ofBlocks m found).Loaded entries where
  inRange := (records_ofBlocks found).inRange
  chains := by
    intro name
    have hwalk := (records_ofBlocks found).chains name
    rw [coveringSigners, hmanifest]
    simp only [flatMap_chainsFor_eq hfound]
    exact hwalk
  manifest := fun _ _ => hmanifest.symm

/-- Signatures that load say what the archive does, whatever the limit. -/
theorem loaded_of_verifySignatures {entries : List Entry} {limit : UInt64} {s : Signatures}
    (h : verifySignatures entries limit = .ok s) : s.Loaded entries := by
  by_cases hnothing : pairedBlocks entries = [] ∨ entryNamed? entries EntryName.manifest = none
  · rw [verifySignatures_eq_none limit hnothing] at h
    cases h
    exact Signatures.loaded_none hnothing
  · obtain ⟨hpaired, hsome⟩ := not_or.1 hnothing
    obtain ⟨e, hentry⟩ := Option.ne_none_iff_exists'.1 hsome
    rw [verifySignatures_eq_bind hentry hpaired] at h
    obtain ⟨m, hm, hblocks⟩ := Steps.bind_eq_ok_iff.1 h
    rw [verifyBlocks_eq] at hblocks
    obtain ⟨found, hfound, rfl⟩ := Steps.map_eq_ok_iff.1 hblocks
    -- Some block is verified, which it would not be under the limit at which all is empty.
    obtain ⟨p, hp⟩ := List.exists_mem_of_ne_nil _ hpaired
    obtain ⟨signed, hsigned⟩ := Steps.exists_mapM_eq_ok_iff.1 ⟨found, hfound⟩ p hp
    have hlimit := PairedBlock.limit_ne_of_signed hsigned
    exact Signatures.loaded_ofBlocks (manifest?_of_readManifest hentry hlimit hm) hfound

namespace Signatures.Loaded

variable {entries : List Entry} {s : Signatures}

theorem signersOf_eq_nil_iff (h : s.Loaded entries) (name : String) :
    s.coverage.signersOf name = [] ↔ coveringSigners entries name = [] := by
  rw [← h.chains name, coveringChains]
  constructor
  · intro hnil
    rw [hnil, List.filterMap_nil]
  · intro hnil
    rw [List.filterMap_eq_nil_iff] at hnil
    rw [List.eq_nil_iff_forall_not_mem]
    intro i hi
    have hget := List.getElem?_eq_getElem (h.inRange name i hi)
    exact absurd (hget.symm.trans (hnil i hi)) (by simp)

/-- The digests stated count if anyone signs the name. -/
theorem expectedDigests_eq (h : s.Loaded entries) (name : String) :
    s.expectedDigests name =
      if coveringSigners entries name = [] then [] else statedDigests entries name := by
  have hnil := h.signersOf_eq_nil_iff name
  rw [expectedDigests]
  by_cases hsigners : s.coverage.signersOf name = []
  · simp [hsigners, hnil.1 hsigners]
  · have hsame := h.manifest name hsigners
    have hcovered := mt hnil.2 hsigners
    cases hmanifest : manifest? entries <;>
      simp [hsigners, hcovered, hsame, statedDigests, hmanifest]

/-- Those who sign the name count if any digest is stated. -/
theorem signersOf_eq (h : s.Loaded entries) (name : String) :
    s.signersOf name =
      if statedDigests entries name = [] then [] else coveringSigners entries name := by
  have hnil := h.signersOf_eq_nil_iff name
  have hchains : (s.coverage.signersOf name).filterMap (fun i => s.signers[i]?) =
      coveringSigners entries name := h.chains name
  rw [signersOf, isUnchecked, h.expectedDigests_eq, hchains]
  by_cases hcovering : coveringSigners entries name = []
  · simp [hcovering, hnil.2 hcovering]
  · simp [hcovering, mt hnil.1 hcovering]

end Signatures.Loaded

/-! ### What comes of a read -/

/-- A read of a fresh archive is a check under the signatures that load. -/
theorem read_opened_result {entries : List Entry} {limits : SizeLimits} {s : Signatures}
    (hload : verifySignatures entries limits.metadata = .ok s) {i : Nat} {e : Entry}
    (hentry : entries[i]? = some e) :
    (((SignedArchive.opened entries).limitedTo limits).read i).result =
      s.checkEntry limits.entry e := by
  have hfresh : ((SignedArchive.opened entries).limitedTo limits).currentSignatures = .ok s :=
    hload
  have hentry' : ((SignedArchive.opened entries).limitedTo limits).entries[i]? = some e := hentry
  rw [SignedArchive.read, hentry']
  simp only [hfresh]
  rfl

/-- An entry that reads is checked by the digests stated for it if anyone signs it. -/
theorem Signatures.Loaded.checkEntry_octets {entries : List Entry} {s : Signatures}
    (h : s.Loaded entries) {limit : UInt64} {e : Entry} {content : Bytes}
    (hpayload : e.payload = .octets content true) (hfits : Admits limit content.length) :
    s.checkEntry limit e =
      match firstDiffering?
        (if coveringSigners entries e.name = [] then [] else statedDigests entries e.name)
        content with
      | some a => .error (.untrusted (.entryDiffers e.name a))
      | .none => .ok ⟨e.name, content.length, s.signersOf e.name⟩ := by
  rw [checkEntry, Entry.check_octets _ _ hpayload, if_pos hfits, if_pos rfl, h.expectedDigests_eq]
  generalize firstDiffering? _ content = differing
  cases differing <;> rfl

/-- An entry that has all digests stated for it is read with those who sign it. -/
theorem Signatures.Loaded.checkEntry_matching {entries : List Entry} {s : Signatures}
    (h : s.Loaded entries) {limit : UInt64} {e : Entry} {content : Bytes}
    (hpayload : e.payload = .octets content true) (hfits : Admits limit content.length)
    (hstated : statedDigests entries e.name ≠ [])
    (hall : ∀ d ∈ statedDigests entries e.name,
      Base64.spells d.2 (d.1.digest content) = true) :
    s.checkEntry limit e = .ok ⟨e.name, content.length, coveringSigners entries e.name⟩ := by
  have hnone : firstDiffering?
      (if coveringSigners entries e.name = [] then [] else statedDigests entries e.name)
      content = .none := by
    rw [firstDiffering?_eq_none_iff]
    split
    · exact fun d hd => absurd hd List.not_mem_nil
    · exact hall
  rw [h.checkEntry_octets hpayload hfits, hnone, h.signersOf_eq, if_neg hstated]

/-- The outcome of a read that gets to the end of its entry, on a fresh archive whose signatures
load. An entry that nobody signs is read without signers, whatever the manifest states. An entry
that is signed without a digest that can be checked is read without signers too. If all digests
stated match, the signers are those who sign its name, in the order in which they come in the
archive; and if not, the first digest that does not match is the failure. -/
theorem read_outcome_by_signers_and_digests {entries : List Entry} {limits : SizeLimits} {i : Nat}
    {e : Entry} {content : Bytes} (hentry : entries[i]? = some e)
    (hload : ∃ s, verifySignatures entries limits.metadata = .ok s)
    (hpayload : e.payload = .octets content true)
    (hfits : Admits limits.entry content.length) :
    let answer := (((SignedArchive.opened entries).limitedTo limits).read i).result
    (coveringSigners entries e.name = [] → answer = .ok ⟨e.name, content.length, []⟩) ∧
    (coveringSigners entries e.name ≠ [] →
      (statedDigests entries e.name = [] → answer = .ok ⟨e.name, content.length, []⟩) ∧
      (statedDigests entries e.name ≠ [] →
        (∀ d ∈ statedDigests entries e.name, Base64.spells d.2 (d.1.digest content) = true) →
        answer = .ok ⟨e.name, content.length, coveringSigners entries e.name⟩) ∧
      ∀ before d after, statedDigests entries e.name = before ++ d :: after →
        (∀ d ∈ before, Base64.spells d.2 (d.1.digest content) = true) →
        Base64.spells d.2 (d.1.digest content) = false →
        answer = .error (.untrusted (.entryDiffers e.name d.1))) := by
  obtain ⟨s, hs⟩ := hload
  have hloaded := loaded_of_verifySignatures hs
  intro answer
  have hanswer : answer = s.checkEntry limits.entry e := read_opened_result hs hentry
  refine ⟨?_, ?_⟩
  · intro hnobody
    rw [hanswer, hloaded.checkEntry_octets hpayload hfits, hloaded.signersOf_eq, hnobody]
    simp [firstDiffering?]
  · intro hsigned
    refine ⟨?_, ?_, ?_⟩
    · intro hnothing
      rw [hanswer, hloaded.checkEntry_octets hpayload hfits, hloaded.signersOf_eq, hnothing]
      simp [firstDiffering?]
    · intro hstated hall
      rw [hanswer, hloaded.checkEntry_matching hpayload hfits hstated hall]
    · intro before d after hsplit hbefore hdiffers
      rw [hanswer, hloaded.checkEntry_octets hpayload hfits, if_neg hsigned, hsplit,
        firstDiffering?_append_cons hbefore hdiffers]

/-! ### A signed archive -/

/-- A signer with a short key, whose certificate is signed by nobody. -/
def archiveSigner : Signer :=
  let key := SigningKey.rsa
    ⟨0xaebe731566ca1ab549a0f3ac6865b1f93bd4c113962d36b45a57e4e21c3bc5825939ca4d690a059bd0a8f255d278f9a4874a717a331c649914814cde7b83134d,
      3⟩
    0x747ef76399dc11ce3115f7c845992150d28dd60d0ec8cf22e6e543416827d9007588b0c70b0c93a0a60968d26ac74a5f793a59b1928f213228c5d269121ce113
  ⟨"A", key, ⟨Signer.certificateBody ⟨[1]⟩ ⟨[]⟩ key, key.kind.signatureAlgorithm, ⟨0, []⟩⟩⟩

/-- A manifest that states a digest of one file. -/
def archiveManifest : Manifest :=
  ⟨Bytes.ofAscii "Name: a\nSHA1-Digest: hvfkN/qlp/zhXR3cuerq6jd2Z7g=\n", Manifest.noMain,
    [⟨[("Name", "a"), ("SHA1-Digest", "hvfkN/qlp/zhXR3cuerq6jd2Z7g=")], 0, 50⟩]⟩

/-- The signature over the signature file of that manifest. -/
def archiveSignature : Bytes :=
  Bytes.ofNatBE 64
    0x71e4b000d09b07aa44fae93297f665c6c961b2f0e9c0aa4f67e47e6ea6ab95e409e90c5f7ae32f3c03b4d3f43a15326bccc0d3bf4184e6b8bd15a688bdc49184

/-- A signature file for the whole of that manifest, and the block that signs it. -/
def archiveBlock : PairedBlock where
  block := ⟨"META-INF/A.RSA", .octets (Envelope.mk signedDataKind
    (archiveSigner.message none archiveSignature).element).encode true⟩
  signatureFile := ⟨"META-INF/A.SF", .octets
    (Bytes.ofAscii "SHA1-Digest-Manifest: uq3rLZcGnLGybahXMVrzmQrF/WI=\n\nName: a\n") true⟩

/-- An archive with one file, which one signer signed. -/
def signedArchive : List Entry :=
  [⟨"META-INF/MANIFEST.MF", .octets archiveManifest.bytes true⟩, archiveBlock.signatureFile,
   archiveBlock.block, ⟨"a", .octets (Bytes.ofAscii "a") true⟩]

theorem readManifest_archiveManifest :
    readManifest 0 ⟨"META-INF/MANIFEST.MF", .octets archiveManifest.bytes true⟩ =
      .ok archiveManifest := by
  decide +kernel

theorem signed_archiveBlock :
    archiveBlock.signed 0 archiveManifest = .ok ([⟨archiveSigner.certificate, []⟩], ["a"]) := by
  decide +kernel

theorem pairedBlocks_signedArchive : pairedBlocks signedArchive = [archiveBlock] := by
  rfl

theorem entryNamed?_signedArchive :
    entryNamed? signedArchive EntryName.manifest =
      some ⟨"META-INF/MANIFEST.MF", .octets archiveManifest.bytes true⟩ := by
  rfl

theorem manifest?_signedArchive : manifest? signedArchive = some archiveManifest :=
  manifest?_of_readManifest entryNamed?_signedArchive (by decide) readManifest_archiveManifest

theorem verifySignatures_signedArchive : ∃ s, verifySignatures signedArchive 0 = .ok s := by
  have hpaired : pairedBlocks signedArchive ≠ [] := by
    rw [pairedBlocks_signedArchive]
    exact List.cons_ne_nil _ _
  rw [exists_verifySignatures_eq_ok_iff entryNamed?_signedArchive hpaired,
    pairedBlocks_signedArchive]
  exact ⟨archiveManifest, readManifest_archiveManifest,
    List.forall_mem_singleton.2 ⟨_, signed_archiveBlock⟩⟩

theorem coveringSigners_signedArchive :
    coveringSigners signedArchive "a" = [⟨archiveSigner.certificate, []⟩] := by
  rw [coveringSigners, manifest?_signedArchive, pairedBlocks_signedArchive]
  simp only [List.flatMap_singleton, PairedBlock.chainsFor_of_signed signed_archiveBlock]
  rfl

theorem statedDigests_signedArchive :
    statedDigests signedArchive "a" = [(.sha1, "hvfkN/qlp/zhXR3cuerq6jd2Z7g=")] := by
  rw [statedDigests, manifest?_signedArchive]
  rfl

/-- The file of the signed archive is read with its signer. -/
theorem signedArchive_read_signed :
    signedArchive[3]? = some ⟨"a", .octets (Bytes.ofAscii "a") true⟩ ∧
    (∃ s, verifySignatures signedArchive SizeLimits.none.metadata = .ok s) ∧
    (((SignedArchive.opened signedArchive).limitedTo .none).read 3).result =
      .ok ⟨"a", 1, [⟨archiveSigner.certificate, []⟩]⟩ := by
  have hentry : signedArchive[3]? = some ⟨"a", .octets (Bytes.ofAscii "a") true⟩ := rfl
  have hload : ∃ s, verifySignatures signedArchive SizeLimits.none.metadata = .ok s :=
    verifySignatures_signedArchive
  obtain ⟨_, hsigned⟩ := read_outcome_by_signers_and_digests hentry hload rfl (Or.inl rfl)
  rw [coveringSigners_signedArchive, statedDigests_signedArchive] at hsigned
  obtain ⟨_, hread, _⟩ := hsigned (List.cons_ne_nil _ _)
  exact ⟨hentry, hload, hread (List.cons_ne_nil _ _) (by decide +kernel)⟩

end JarSigners
