import JarSigners.Proofs.Archive.Pairing
import JarSigners.Proofs.Signers.Reduction
import JarSigners.Proofs.Signing.Block
import JarSigners.Proofs.Signing.SignedDraft

/-!
# What is found in an archive that was signed

A reader pairs every signature with its file, finds it verified if the signer is honest, and then
asks what the signature file says of the manifest. So the outcome hangs on the files that the
signatures are over, on those that the manifest states, and on those that are there.
-/

set_option autoImplicit false

namespace JarSigners

/-- No limit is met by any entry: those of the metadata directory have a limit of their own. -/
structure SizeLimits.Hold (limits : SizeLimits) (draft : ArchiveDraft) : Prop where
  metadata : limits.metadata ≠ wrappingLimit
  entries : ∀ e ∈ draft, Admits
    (if EntryName.isMetadata e.name then limits.metadata else limits.entry)
    e.writtenContent.length

/-- Where there are no limits, none is met. -/
theorem SizeLimits.hold_none (draft : ArchiveDraft) : SizeLimits.none.Hold draft where
  metadata := by decide
  entries := by
    intro e _
    cases EntryName.isMetadata e.name with
    | false => exact Or.inl rfl
    | true => exact Or.inl rfl

/-! ### Lists without repetitions -/

theorem SignatureBlock.firsts_of_nodup {α : Type} [BEq α] [LawfulBEq α] {items : List α}
    (h : items.Nodup) : firsts items = items := by
  induction items using List.reverseRecOn with
  | nil => rfl
  | append_singleton items x ih =>
    obtain ⟨hitems, -, hdisjoint⟩ := List.nodup_append.1 h
    have hnew : x ∉ firsts items := by
      rw [mem_firsts]
      exact fun hx => hdisjoint x hx x List.mem_cons_self rfl
    rw [firsts_concat, if_neg hnew, ih hitems]

theorem SignerSet.signers_ofList_of_nodup {signers : List Chain}
    (h : (signers.map Chain.fingerprint).Nodup) : (ofList signers).signers = signers := by
  induction signers using List.reverseRecOn with
  | nil => rfl
  | append_singleton signers signer ih =>
    rw [List.map_append, List.nodup_append] at h
    obtain ⟨hsigners, -, hdisjoint⟩ := h
    have hnew : signer.fingerprint ∉ (ofList signers).index := by
      rw [mem_index_ofList]
      exact fun hmem => hdisjoint _ hmem _ List.mem_cons_self rfl
    rw [ofList_concat, signers_insert, if_neg hnew, ih hsigners]

theorem firstByPrint_of_nodup {signers : List Chain}
    (h : (signers.map Chain.fingerprint).Nodup) : firstByPrint signers = signers := by
  rw [← SignerSet.signers_ofList, SignerSet.signers_ofList_of_nodup h]

/-- A file outside the metadata directory, which signatures have to cover. -/
def DraftEntry.isContent (e : DraftEntry) : Bool :=
  e.content.isSome && !EntryName.isMetadata e.name

theorem DraftEntry.WellNamed.isContent_eq {e : DraftEntry} (h : e.WellNamed) :
    e.isContent = (!EntryName.isDirectory e.name && !EntryName.isMetadata e.name) := by
  rw [DraftEntry.isContent, h.isDirectory_eq]
  cases e.content <;> rfl

theorem DraftEntry.WellNamed.isContent_entry {e : DraftEntry} (h : e.WellNamed) :
    e.entry.isContent = e.isContent := by
  rw [h.isContent_eq, Entry.isContent, Entry.isDirectory, Entry.isMetadata, DraftEntry.entry,
    h.writtenName_eq]

namespace Signature

/-- The block with its signature file, as they stand in an archive. -/
def paired (g : Signature) : PairedBlock :=
  ⟨g.block.entry, g.signatureFile.entry⟩

/-- The signature file as it is read. -/
def read (g : Signature) : SignatureFile :=
  ManifestDraft.signatureFileOver g.signer.signatureFileName g.files

/-- The names of the files that the signature is over. -/
def names (g : Signature) : List String :=
  g.files.map Prod.fst

end Signature

namespace SignedDraft

variable {a : SignedDraft}

/-- The entries that a reader finds. -/
def entries (a : SignedDraft) : List Entry :=
  a.draft.map DraftEntry.entry

/-- The manifest that a reader finds. -/
def manifest (a : SignedDraft) : Manifest :=
  (ManifestDraft.stating a.stated).manifest

def manifestEntry (a : SignedDraft) : DraftEntry :=
  .file EntryName.manifest (ManifestDraft.stating a.stated).encode

theorem entries_eq (a : SignedDraft) :
    a.entries = a.manifestEntry.entry ::
      ((a.signatures.flatMap Signature.entries).map DraftEntry.entry ++
        a.rest.map DraftEntry.entry) := by
  rw [entries, draft, front, List.cons_append, List.map_cons, List.map_append, manifestEntry]

/-! ### Pairing -/

theorem entryNamed?_manifest (a : SignedDraft) :
    entryNamed? a.entries EntryName.manifest = some a.manifestEntry.entry := by
  rw [entryNamed?, entries_eq]
  exact List.find?_cons_of_pos (Text.alike_refl _)

/-- The only file alike to a signature file is that file itself. -/
theorem find?_signatureFile {signatures : List Signature}
    (hnamed : ∀ g ∈ signatures, g.signer.NamesFiles)
    (hapart : signatures.Pairwise fun g h => g.alike h = false) {g : Signature}
    (hg : g ∈ signatures) :
    ((signatures.flatMap Signature.entries).map DraftEntry.entry).find?
      (fun e => Text.alike e.name g.signer.signatureFileName) = some g.signatureFile.entry := by
  induction signatures with
  | nil => exact absurd hg List.not_mem_nil
  | cons first signatures ih =>
    obtain ⟨hfirst, hothers⟩ := List.forall_mem_cons.1 hnamed
    rw [List.pairwise_cons] at hapart
    rw [List.flatMap_cons, List.map_append]
    rcases List.mem_cons.1 hg with rfl | hlater
    · exact List.find?_cons_of_pos (Text.alike_refl _)
    · have hfile : Text.alike first.signer.signatureFileName g.signer.signatureFileName = false := by
        rw [Bool.eq_false_iff]
        intro halike
        have hstem := EntryName.stem?_eq_of_alike halike
        rw [Signer.stem?_signatureFileName, Signer.stem?_signatureFileName, Option.some.injEq,
          Signer.folded_stem_eq_iff] at hstem
        exact absurd hstem (Bool.eq_false_iff.1 (hapart.1 g hlater))
      have hblock : Text.alike first.signer.blockName g.signer.signatureFileName = false :=
        EntryName.not_alike_of_isBlock (Signer.isBlock_blockName hfirst)
          (Signer.signatureFileOf?_blockName g.signer)
      have hskip : (first.entries.map DraftEntry.entry).find?
          (fun e => Text.alike e.name g.signer.signatureFileName) = none := by
        rw [List.find?_eq_none]
        simp only [Signature.entries, List.map_cons, List.map_nil, List.forall_mem_cons,
          Signature.signatureFile, Signature.block, DraftEntry.entry, DraftEntry.writtenName,
          DraftEntry.file]
        exact ⟨Bool.eq_false_iff.1 hfile, Bool.eq_false_iff.1 hblock,
          fun _ h => absurd h List.not_mem_nil⟩
      rw [List.find?_append, hskip, Option.none_or, ih hothers hapart.2 hlater]

theorem signatureFileBeside?_block (h : a.WellFormed) {g : Signature} (hg : g ∈ a.signatures) :
    signatureFileBeside? a.entries g.block.entry = some g.signatureFile.entry := by
  have hof : EntryName.signatureFileOf? g.block.entry.name = some g.signer.signatureFileName :=
    Signer.signatureFileOf?_blockName g.signer
  have hmanifest : ¬ Text.alike a.manifestEntry.entry.name g.signer.signatureFileName = true := by
    have hending : EntryName.ending? a.manifestEntry.entry.name ≠
        EntryName.ending? g.signer.signatureFileName := by
      rw [Signer.ending?_signatureFileName]
      exact (by decide : EntryName.ending? EntryName.manifest ≠ some "sf".toList)
    exact Bool.eq_false_iff.1 (EntryName.not_alike_of_ending?_ne hending)
  have hfind := find?_signatureFile h.named h.apart hg
  rw [signatureFileBeside?, hof, Option.bind_some, entryNamed?, entries_eq,
    List.find?_cons_of_neg (p := fun e : Entry => Text.alike e.name g.signer.signatureFileName)
      (a := a.manifestEntry.entry) hmanifest,
    List.find?_append, hfind, Option.some_or]

theorem isBlock_eq_false {e : DraftEntry} (he : e.Ordinary) :
    EntryName.isBlock e.entry.name = false := by
  rw [DraftEntry.entry, he.writtenName_eq, Bool.eq_false_iff]
  intro hblock
  exact absurd (EntryName.belongsToSignature_of_isBlock hblock) (Bool.eq_false_iff.1 he.unsigned)

/-- Every signature is paired with its file, and nothing else is. -/
theorem pairedBlocks_entries (h : a.WellFormed) :
    pairedBlocks a.entries = a.signatures.map Signature.paired := by
  have hfile : ∀ g ∈ a.signatures, pair? a.entries g.signatureFile.entry = none := by
    intro g hg
    have hblock : EntryName.isBlock g.signatureFile.entry.name = false :=
      Signer.isBlock_signatureFileName g.signer
    rw [pair?, if_neg (Bool.eq_false_iff.1 hblock)]
  have hpaired : ∀ g ∈ a.signatures, pair? a.entries g.block.entry = some g.paired := by
    intro g hg
    have hblock : EntryName.isBlock g.block.entry.name = true :=
      Signer.isBlock_blockName (h.named g hg)
    rw [pair?, if_pos hblock, signatureFileBeside?_block h hg]
    rfl
  have hmanifest : pair? a.entries a.manifestEntry.entry = none := by
    have hblock : EntryName.isBlock a.manifestEntry.entry.name = false :=
      (by decide : EntryName.isBlock EntryName.manifest = false)
    rw [pair?, if_neg (Bool.eq_false_iff.1 hblock)]
  have hrest : (a.rest.map DraftEntry.entry).filterMap (pair? a.entries) = [] := by
    rw [List.filterMap_map, List.filterMap_eq_nil_iff]
    intro e he
    rw [Function.comp_apply, pair?, if_neg (Bool.eq_false_iff.1 (isBlock_eq_false (h.rest e he)))]
  have hsignatures : ∀ signatures : List Signature, (∀ g ∈ signatures, g ∈ a.signatures) →
      ((signatures.flatMap Signature.entries).map DraftEntry.entry).filterMap (pair? a.entries) =
        signatures.map Signature.paired := by
    intro signatures
    induction signatures with
    | nil => exact fun _ => rfl
    | cons g signatures ih =>
      intro hmem
      obtain ⟨hg, hothers⟩ := List.forall_mem_cons.1 hmem
      rw [List.flatMap_cons, List.map_append, List.filterMap_append, ih hothers]
      simp only [Signature.entries, List.map_cons, List.map_nil,
        List.filterMap_cons_none (hfile g hg), List.filterMap_cons_some (hpaired g hg),
        List.filterMap_nil, List.cons_append, List.nil_append]
  rw [pairedBlocks_eq_filterMap]
  refine (congrArg (List.filterMap (pair? a.entries)) (entries_eq a)).trans ?_
  rw [List.filterMap_cons_none hmanifest, List.filterMap_append, hrest, List.append_nil,
    hsignatures _ fun _ hg => hg]

/-! ### Reading the metadata -/

section Reading

variable {limits : SizeLimits}

theorem mem_front_of_signature {g : Signature} (hg : g ∈ a.signatures) :
    g.signatureFile ∈ a.draft ∧ g.block ∈ a.draft := by
  have hmem : ∀ e ∈ g.entries, e ∈ a.draft := fun e he =>
    List.mem_append_left _ (List.mem_cons_of_mem _ (List.mem_flatMap.2 ⟨g, hg, he⟩))
  exact ⟨hmem _ List.mem_cons_self, hmem _ (List.mem_cons_of_mem _ List.mem_cons_self)⟩

/-- A metadata file of an archive is read whole. -/
theorem metadataOctets_file {draft : ArchiveDraft} (hlimits : limits.Hold draft) {name : String}
    {content : Bytes} (hmem : DraftEntry.file name content ∈ draft)
    (hmetadata : EntryName.isMetadata name = true) :
    (DraftEntry.file name content).entry.metadataOctets limits.metadata = .ok content := by
  have hadmits := hlimits.entries _ hmem
  rw [show EntryName.isMetadata (DraftEntry.file name content).name = true from hmetadata,
    if_pos rfl] at hadmits
  exact (Entry.metadataOctets_eq_ok_iff hlimits.metadata).2 ⟨rfl, hadmits⟩

theorem readManifest_entries (h : a.WellFormed) (hlimits : limits.Hold a.draft) :
    readManifest limits.metadata a.manifestEntry.entry = .ok a.manifest := by
  have hoctets := metadataOctets_file hlimits (List.mem_append_left _ List.mem_cons_self)
    EntryName.isMetadata_manifest
  exact readManifest_eq_ok_iff.2 ⟨_, hoctets,
    ManifestDraft.read_manifest (ManifestDraft.writable_stating h.oneLine_stated) _⟩

/-- The block of an honest signer verifies over its signature file. -/
theorem verified_paired (h : a.WellFormed) (hlimits : limits.Hold a.draft) {g : Signature}
    (hg : g ∈ a.signatures) (honest : g.signer.Honest) :
    g.paired.verified limits.metadata = .ok (g.read, [g.signer.chain]) := by
  obtain ⟨hfile, hblock⟩ := mem_front_of_signature hg
  have hbytes : g.read.bytes = g.content := rfl
  refine PairedBlock.verified_eq_ok_iff.2 ⟨g.content, g.signer.block false g.content, ?_, ?_, ?_, ?_⟩
  · exact metadataOctets_file hlimits hfile (Signer.isMetadata_signatureFileName _)
  · exact ManifestDraft.read_signatureFile (h.oneLine_over hg) _
  · exact metadataOctets_file hlimits hblock (Signer.isMetadata_blockName _)
  · rw [hbytes]
    exact Signer.chains_block honest

/-- So what a signature signs is what its signature file says of the manifest. -/
theorem signed_paired (h : a.WellFormed) (hlimits : limits.Hold a.draft) {g : Signature}
    (hg : g ∈ a.signatures) (honest : g.signer.Honest) (m : Manifest) :
    g.paired.signed limits.metadata m =
      (untrusted (g.read.coveredNames m)).map fun names => ([g.signer.chain], names) := by
  rw [PairedBlock.signed, verified_paired h hlimits hg honest, Steps.ok_bind]
  simp only
  cases untrusted (g.read.coveredNames m) with
  | error e => rfl
  | ok names => rfl

/-! ### When all signatures cover what they are over -/

/-- Every signature signs the files it is over. -/
def Covers (a : SignedDraft) : Prop :=
  ∀ g ∈ a.signatures, g.read.coveredNames a.manifest = .ok g.names

variable (h : a.WellFormed) (hlimits : limits.Hold a.draft)
  (honest : ∀ g ∈ a.signatures, g.signer.Honest) (hcovers : a.Covers)

include h hlimits

theorem manifest?_entries : manifest? a.entries = some a.manifest :=
  manifest?_of_readManifest (entryNamed?_manifest a) hlimits.metadata
    (readManifest_entries h hlimits)

include honest hcovers

theorem signed_of_covers {g : Signature} (hg : g ∈ a.signatures) :
    g.paired.signed limits.metadata a.manifest = .ok ([g.signer.chain], g.names) := by
  rw [signed_paired h hlimits hg (honest g hg), hcovers g hg]
  rfl

theorem exists_verifySignatures : ∃ s, verifySignatures a.entries limits.metadata = .ok s := by
  have hpairs := pairedBlocks_entries h
  by_cases hnone : a.signatures = []
  · exact ⟨_, verifySignatures_eq_none _ (Or.inl (by rw [hpairs, hnone, List.map_nil]))⟩
  · refine (exists_verifySignatures_eq_ok_iff (entryNamed?_manifest a) ?_ _).2 ⟨a.manifest,
      readManifest_entries h hlimits, ?_⟩
    · rw [hpairs]
      exact fun hmap => hnone (List.map_eq_nil_iff.1 hmap)
    · rw [hpairs]
      exact List.forall_mem_map.2 fun g hg => ⟨_, signed_of_covers h hlimits honest hcovers hg⟩

/-- Who signs a name: the signers of the signatures over it, in the order of the signatures. -/
def signersOf (a : SignedDraft) (name : String) : List Chain :=
  (a.signatures.filter fun g => name ∈ g.names).map fun g => g.signer.chain

theorem coveringSigners_entries (hdistinct : (a.signatures.map fun g => g.signer.chain).Nodup)
    (name : String) : coveringSigners a.entries name = a.signersOf name := by
  have hfor : ∀ g ∈ a.signatures, g.paired.chainsFor a.manifest name =
      if name ∈ g.names then [g.signer.chain] else [] := fun g hg =>
    PairedBlock.chainsFor_of_signed (signed_of_covers h hlimits honest hcovers hg) name
  have hflat : (a.signatures.map Signature.paired).flatMap
      (PairedBlock.chainsFor a.manifest name) = a.signersOf name := by
    rw [List.flatMap_map, signersOf]
    generalize a.signatures = signatures at hfor
    induction signatures with
    | nil => rfl
    | cons g signatures ih =>
      obtain ⟨hg, hothers⟩ := List.forall_mem_cons.1 hfor
      rw [List.flatMap_cons, ih hothers, hg, List.filter_cons]
      by_cases hname : name ∈ g.names
      · simp [hname]
      · simp [hname]
  have hnodup : (a.signersOf name).Nodup := hdistinct.sublist (List.filter_sublist.map _)
  rw [coveringSigners, manifest?_entries h hlimits, pairedBlocks_entries h]
  simp only [hflat, SignatureBlock.firsts_of_nodup hnodup]

/-! ### Reading the content -/

omit honest hcovers in
theorem statedDigests_entries {name : String} {content : Bytes}
    (hstated : (name, content) ∈ a.stated) :
    statedDigests a.entries name = [(.sha256, ManifestDraft.stated content)] := by
  have hdistinct : ((ManifestDraft.stating a.stated).sections.map Prod.fst).Nodup := by
    rw [ManifestDraft.stating, List.map_map]
    exact h.nodup_stated
  have hsection : (name, ManifestDraft.statement content) ∈
      (ManifestDraft.stating a.stated).sections :=
    List.mem_map_of_mem (f := fun f : String × Bytes => (f.1, ManifestDraft.statement f.2)) hstated
  obtain ⟨found, hfound, hattributes, -⟩ := ManifestDraft.section?_manifest hdistinct hsection
  rw [statedDigests, manifest?_entries h hlimits]
  simp only [manifest, hfound, Option.map_some, Option.getD_some,
    ManifestDraft.digests_statement hattributes]

variable (hdistinct : (a.signatures.map fun g => g.signer.chain).Nodup) {e : DraftEntry}
  {content : Bytes} (he : e ∈ a.rest) (hcontent : e.content = some content)
  (hoff : EntryName.isMetadata e.name = false)

include hdistinct he hcontent hoff

/-- Reading a file checks it against what the manifest states of it, if anyone signs it. -/
theorem answerTo_file : ∃ s : Signatures, s.Loaded a.entries ∧
    answerTo a.entries limits e.entry =
      match firstDiffering? (if a.signersOf e.name = [] then []
        else statedDigests a.entries e.name) content with
      | some d => .error (.untrusted (.entryDiffers e.name d))
      | none => .ok ⟨e.name, content.length, s.signersOf e.name⟩ := by
  obtain ⟨s, hload⟩ := exists_verifySignatures h hlimits honest hcovers
  have hname : e.entry.name = e.name := (h.rest e he).writtenName_eq
  have hwritten : e.writtenContent = content := by
    rw [DraftEntry.writtenContent, hcontent, Option.getD_some]
  have hpayload : e.entry.payload = .octets content true := by
    rw [DraftEntry.entry, hwritten]
  have hadmits : Admits limits.entry content.length := by
    have hentry := hlimits.entries e (List.mem_append_right _ he)
    rw [hoff, hwritten] at hentry
    exact hentry
  have hloaded := loaded_of_verifySignatures hload
  have hcheck := hloaded.checkEntry_octets hpayload hadmits
  rw [hname, coveringSigners_entries h hlimits honest hcovers hdistinct] at hcheck
  exact ⟨s, hloaded, (answerTo_of_load hload e.entry).trans hcheck⟩

/-- A file that nobody signs is held to nothing. -/
theorem answerTo_unsigned (hnobody : a.signersOf e.name = []) :
    answerTo a.entries limits e.entry = .ok ⟨e.name, content.length, []⟩ := by
  obtain ⟨s, hloaded, hanswer⟩ := answerTo_file h hlimits honest hcovers hdistinct he hcontent hoff
  rw [hanswer, hnobody, if_pos rfl, hloaded.signersOf_eq,
    coveringSigners_entries h hlimits honest hcovers hdistinct, hnobody, ite_self]
  rfl

/-- A file that somebody signs has to have the digest that was stated, and then has its signers. -/
theorem answerTo_signed (hsigned : a.signersOf e.name ≠ []) {old : Bytes}
    (hstated : (e.name, old) ∈ a.stated) :
    answerTo a.entries limits e.entry =
      if Digest.sha256.digest old = Digest.sha256.digest content then
        .ok ⟨e.name, content.length, a.signersOf e.name⟩
      else .error (.untrusted (.entryDiffers e.name .sha256)) := by
  obtain ⟨s, hloaded, hanswer⟩ := answerTo_file h hlimits honest hcovers hdistinct he hcontent hoff
  have hstates := statedDigests_entries h hlimits hstated
  have hsigners : s.signersOf e.name = a.signersOf e.name := by
    rw [hloaded.signersOf_eq, hstates, if_neg (List.cons_ne_nil _ _),
      coveringSigners_entries h hlimits honest hcovers hdistinct]
  rw [hanswer, hsigners, if_neg hsigned, hstates]
  by_cases hsame : Digest.sha256.digest old = Digest.sha256.digest content
  · have hall : ∀ d ∈ [(Digest.Algorithm.sha256, ManifestDraft.stated old)],
        Base64.spells d.2 (d.1.digest content) = true := by
      intro d hd
      rw [List.mem_singleton.1 hd]
      exact ManifestDraft.spells_stated_iff.2 hsame
    rw [firstDiffering?_eq_none_iff.2 hall, if_pos hsame]
  · have hspells : Base64.spells (ManifestDraft.stated old)
        (Digest.Algorithm.sha256.digest content) = false := by
      rw [Bool.eq_false_iff, Ne, ManifestDraft.spells_stated_iff]
      exact hsame
    have hfirst : firstDiffering? ([] ++ (.sha256, ManifestDraft.stated old) :: []) content =
        some .sha256 :=
      firstDiffering?_append_cons (fun _ hd => absurd hd List.not_mem_nil) hspells
    rw [List.nil_append] at hfirst
    rw [hfirst, if_neg hsame]

end Reading

end SignedDraft

end JarSigners
