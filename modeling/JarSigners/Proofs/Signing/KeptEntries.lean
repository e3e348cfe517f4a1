import JarSigners.Proofs.Archive.Names
import JarSigners.Proofs.Signing.Commuting

/-!
# What signing keeps of an archive

A name is that of a manifest, belongs to a signature, or neither, and of the names that belong to
signatures the signer owns some. What signing replaces are manifests and the signer's own signature
files; every other entry is in one part of the signed archive (`ArchiveDraft.mem_sign_of_kept`). The
parts have no name in common, so the writer refuses no entry for its name, and all of them are
written if they fit (`signing_keeps_all_other_entries`).
-/

set_option autoImplicit false

namespace JarSigners

namespace ArchiveDraft

variable {draft : ArchiveDraft} {s : Signer} {e : DraftEntry}

/-- What is neither a manifest nor the signer's own is kept. -/
theorem mem_sign_of_kept (he : e ∈ draft) (hmanifest : EntryName.isManifest e.name = false)
    (hown : (EntryName.belongsToSignature e.name && s.owns e.name) = false) :
    e ∈ draft.sign s := by
  rw [sign_eq, List.mem_append, List.mem_cons, List.mem_append]
  cases hsignature : EntryName.belongsToSignature e.name with
  | true =>
    have hother : s.owns e.name = false := by rwa [hsignature, Bool.true_and] at hown
    exact Or.inl (Or.inr (Or.inl (List.mem_filter.2 ⟨he, by simp [hsignature, hother]⟩)))
  | false => exact Or.inr (List.mem_filter.2 ⟨he, by simp [hsignature, hmanifest]⟩)

theorem writtenName_sign (h : ∀ e ∈ draft, e.writtenName = e.name) (s : Signer) :
    ∀ e ∈ draft.sign s, e.writtenName = e.name := by
  intro e he
  rcases mem_sign he with rfl | rfl | rfl | hold
  · rfl
  · rfl
  · rfl
  · exact h e hold

/-- Whatever is read can be signed, and then is written as far as it fits. -/
theorem write_sign_done_iff (hwritten : ∀ e ∈ draft, e.writtenName = e.name)
    (hdistinct : (draft.map DraftEntry.name).Nodup) (hs : s.NamesFiles) :
    (FileState.write (draft.sign s)).result = .ok () ↔ ∀ e ∈ draft.sign s, e.Fits := by
  have hnames : ((draft.sign s).map DraftEntry.writtenName).Nodup := by
    rw [List.map_congr_left (writtenName_sign hwritten s)]
    exact nodup_names_sign hdistinct hs
  rw [write_done_iff, and_iff_right hnames]

end ArchiveDraft

/-- Signing loses and duplicates nothing else. For every archive that can be read, whose names are
distinct, and every signer whose name is not empty and has no slash, what is written is one
manifest, the signatures of others as they were and in the order in which they were, the signature
file and the block of the signer, and everything else as it was and in its order, but for
manifests. Every entry is there exactly once unless it is a manifest, in any case, or one of the
signer's own signature files. No name is there twice, so the writer carries this out exactly if no
name is too long for it and no content too large, and what is then in the file is all of it. What is
read as a signature block always belongs to a signature. -/
theorem signing_keeps_all_other_entries {file : FileState} {draft : ArchiveDraft} {s : Signer}
    (hdraft : file.draft = .ok draft) (hs : s.NamesFiles) :
    let manifest := draft.currentManifest
    let signatureFile := manifest.signatureFile.encode
    let signed := [.file EntryName.manifest manifest.encode] ++
      draft.filter (fun e => EntryName.belongsToSignature e.name && !s.owns e.name) ++
      [.file s.signatureFileName signatureFile, .file s.blockName (s.block false signatureFile)] ++
      draft.filter fun e => !EntryName.isManifest e.name && !EntryName.belongsToSignature e.name
    (draft.map DraftEntry.name).Nodup ∧ file.sign s = FileState.write signed ∧
      (∀ e ∈ draft, EntryName.isManifest e.name = false →
        (EntryName.belongsToSignature e.name && s.owns e.name) = false → signed.count e = 1) ∧
      (signed.map DraftEntry.name).Nodup ∧
      ((FileState.write signed).result = .ok () ↔ ∀ e ∈ signed, e.Fits) ∧
      ((FileState.write signed).result = .ok () →
        (FileState.write signed).file = .octets (Zip.encode signed)) ∧
      ∀ name, EntryName.isBlock name = true → EntryName.belongsToSignature name = true := by
  intro manifest signatureFile signed
  have hdistinct := FileState.nodup_names_draft hdraft
  have hsigned : signed = draft.sign s := rfl
  have hnames : (signed.map DraftEntry.name).Nodup := by
    rw [hsigned]
    exact ArchiveDraft.nodup_names_sign hdistinct hs
  refine ⟨hdistinct, ?_, fun e he hmanifest hown => ?_, hnames, ?_,
    fun hdone => congrArg FileChange.file (ArchiveDraft.write_of_done hdone),
    fun name => EntryName.belongsToSignature_of_isBlock⟩
  · rw [FileState.sign, FileState.changed, hdraft]
    rfl
  · have hmem : e ∈ signed := ArchiveDraft.mem_sign_of_kept he hmanifest hown
    exact List.count_eq_one_of_mem hnames.of_map hmem
  · exact ArchiveDraft.write_sign_done_iff (FileState.writtenName_of_draft hdraft) hdistinct hs

/-- Names of manifests and of signatures in any case. -/
def mixedEntries : ArchiveDraft :=
  [.file "meta-inf/manifest.mf" [], .file "META-INF/Manifest.mf" [], .file "META-INF/OTHER.SF" [1],
    .file "META-INF/first.dsa" [2], .file "META-INF/FIRST.txt" [3], .directory "META-INF/sub",
    .file "META-INF/sub/FIRST.SF" [4], .file "meta-inf/sig-first" [5], .file "a.txt" [6]]

theorem kept_mixedEntries : mixedEntries.Kept :=
  ArchiveDraft.kept_of_small (by decide) (by decide) (by decide)
    (ArchiveDraft.length_names_le (by decide)) (by decide)

/-- Of these a signer replaces the manifests and a block. -/
theorem mixed_entries_kept :
    (FileState.octets (Zip.encode mixedEntries)).draft = .ok mixedEntries ∧
      Signer.first.NamesFiles ∧
      (mixedEntries.sign .first).map DraftEntry.name =
        [EntryName.manifest, "META-INF/OTHER.SF", "meta-inf/sig-first", "META-INF/FIRST.SF",
          "META-INF/FIRST.RSA", "META-INF/FIRST.txt", "META-INF/sub/", "META-INF/sub/FIRST.SF",
          "a.txt"] ∧
      (mixedEntries.sign .first).count (.file "META-INF/FIRST.txt" [3]) = 1 := by
  have hdraft := kept_mixedEntries.stored.draft_octets kept_mixedEntries.named
  have hs : Signer.first.NamesFiles := by decide
  obtain ⟨-, -, hkept, -⟩ := signing_keeps_all_other_entries hdraft hs
  exact ⟨hdraft, hs, by decide, hkept _ (by decide) (by decide) (by decide)⟩

end JarSigners
