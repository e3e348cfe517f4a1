import JarSigners.Proofs.Signing.InTurn
import JarSigners.Proofs.Signing.Refreshing

/-!
# Signing again, and signing in another order

A signature depends on the manifest alone, and the manifest on the files that belong to no
signature. Signing changes none of these files, so once an archive is signed its manifest stays as
it is when others sign it (`Sound.currentManifest_sign`). So signing twice is signing once, and two
signers with different names can sign in either order; only the order of their signatures differs
(`signing_repeats_and_commutes`).
-/

set_option autoImplicit false

namespace JarSigners

/-! ### Names -/

namespace Text.OneLine

variable {a b : String}

theorem append (ha : OneLine a) (hb : OneLine b) : OneLine (a ++ b) := by
  rw [OneLine, String.toList_append, List.mem_append, List.mem_append, not_or, not_or]
  exact ⟨⟨ha.1, hb.1⟩, ha.2, hb.2⟩

/-- Capitals end no line either. -/
theorem capitals (h : OneLine a) : OneLine (Text.capitals a) := by
  have hupper : ∀ c d : Char, d.toNat < 65 → c.toUpper = d → c = d := by
    intro c d hd hc
    rw [← Char.toNat_inj, toNat_toUpper] at hc
    rw [← Char.toNat_inj]
    split at hc <;> omega
  rw [OneLine, Text.capitals, String.toList_ofList, List.mem_map, List.mem_map]
  constructor
  · rintro ⟨c, hc, hcr⟩
    exact h.1 (hupper c '\r' (by decide) hcr ▸ hc)
  · rintro ⟨c, hc, hlf⟩
    exact h.2 (hupper c '\n' (by decide) hlf ▸ hc)

end Text.OneLine

namespace Signer

variable {s : Signer}

theorem oneLine_stem (h : Text.OneLine s.keyName) : Text.OneLine s.stem :=
  (by decide : Text.OneLine EntryName.metadataDirectory).append h.capitals

theorem oneLine_signatureFileName (h : Text.OneLine s.keyName) :
    Text.OneLine s.signatureFileName :=
  (oneLine_stem h).append (by decide)

theorem oneLine_blockName (h : Text.OneLine s.keyName) : Text.OneLine s.blockName :=
  ((oneLine_stem h).append (by decide)).append (by cases s.key.kind <;> decide)

/-- The files of a signature over a manifest. -/
def entriesOver (s : Signer) (m : ManifestDraft) : List DraftEntry :=
  [.file s.signatureFileName m.signatureFile.encode,
    .file s.blockName (s.block false m.signatureFile.encode)]

theorem belongsToSignature_entriesOver (h : s.NamesFiles) (m : ManifestDraft) :
    ∀ e ∈ s.entriesOver m, EntryName.belongsToSignature e.name = true := by
  rw [entriesOver, List.forall_mem_cons, List.forall_mem_singleton]
  exact ⟨belongsToSignature_signatureFileName h, belongsToSignature_blockName h⟩

/-- A signer owns the files of another as their names are alike. -/
theorem owns_entriesOver (s t : Signer) (m : ManifestDraft) :
    ∀ e ∈ s.entriesOver m, t.owns e.name = Text.alike s.keyName t.keyName := by
  rw [entriesOver, List.forall_mem_cons, List.forall_mem_singleton]
  exact ⟨owns_signatureFileName, owns_blockName⟩

end Signer

namespace ArchiveDraft

variable {draft : ArchiveDraft} {a b s : Signer}

/-! ### The parts of a signed archive -/

theorem sign_eq (draft : ArchiveDraft) (s : Signer) :
    draft.sign s = .file EntryName.manifest draft.currentManifest.encode ::
      (draft.otherSignatures s ++ s.entriesOver draft.currentManifest) ++ draft.unsignedPart := by
  simp only [sign, Signer.entriesOver, List.cons_append, List.nil_append, List.append_assoc]

theorem belongsToSignature_otherSignatures (draft : ArchiveDraft) (s : Signer) :
    ∀ e ∈ draft.otherSignatures s, EntryName.belongsToSignature e.name = true := by
  intro e he
  exact (Bool.and_eq_true_iff.1 (List.mem_filter.1 he).2).1

theorem belongsToSignature_signatures (hs : s.NamesFiles) :
    ∀ e ∈ draft.otherSignatures s ++ s.entriesOver draft.currentManifest,
      EntryName.belongsToSignature e.name = true := by
  intro e he
  exact (List.mem_append.1 he).elim (belongsToSignature_otherSignatures draft s e)
    (Signer.belongsToSignature_entriesOver hs _ e)

theorem not_owns_otherSignatures (draft : ArchiveDraft) (s : Signer) :
    ∀ e ∈ draft.otherSignatures s, s.owns e.name = false := by
  intro e he
  simpa using (Bool.and_eq_true_iff.1 (List.mem_filter.1 he).2).2

theorem names_unsignedPart (draft : ArchiveDraft) :
    ∀ e ∈ draft.unsignedPart, EntryName.isManifest e.name = false ∧
      EntryName.belongsToSignature e.name = false := by
  intro e he
  simpa using (List.mem_filter.1 he).2

theorem unsignedPart_unsignedPart (draft : ArchiveDraft) :
    unsignedPart draft.unsignedPart = draft.unsignedPart := by
  rw [unsignedPart, unsignedPart, List.filter_filter]
  simp only [Bool.and_self]

/-- Signing leaves what belongs to no signature as it is. -/
theorem unsignedPart_sign (hs : s.NamesFiles) :
    (draft.sign s).unsignedPart = draft.unsignedPart := by
  have hfront : unsignedPart (.file EntryName.manifest draft.currentManifest.encode ::
      (draft.otherSignatures s ++ s.entriesOver draft.currentManifest)) = [] := by
    exact unsignedPart_of_signatures (List.forall_mem_cons.2
      ⟨Or.inl SignedDraft.isManifest_manifest,
        fun e he => Or.inr (belongsToSignature_signatures hs e he)⟩)
  rw [sign_eq, unsignedPart_append, hfront, unsignedPart_unsignedPart, List.nil_append]

/-- The signatures that another signer keeps of a signed archive. -/
theorem otherSignatures_sign (ha : a.NamesFiles) (b : Signer) :
    (draft.sign a).otherSignatures b =
      (draft.otherSignatures a).filter (fun e => !b.owns e.name) ++
        if Text.alike a.keyName b.keyName then [] else a.entriesOver draft.currentManifest := by
  have hmanifest : EntryName.belongsToSignature EntryName.manifest = false :=
    SignedDraft.belongsToSignature_manifest
  have hothers : (draft.otherSignatures a).filter
      (fun e => EntryName.belongsToSignature e.name && !b.owns e.name) =
        (draft.otherSignatures a).filter fun e => !b.owns e.name := by
    refine List.filter_congr fun e he => ?_
    rw [belongsToSignature_otherSignatures draft a e he, Bool.true_and]
  have hown : (a.entriesOver draft.currentManifest).filter
      (fun e => EntryName.belongsToSignature e.name && !b.owns e.name) =
        if Text.alike a.keyName b.keyName then [] else a.entriesOver draft.currentManifest := by
    cases halike : Text.alike a.keyName b.keyName with
    | true =>
      rw [if_pos rfl, List.filter_eq_nil_iff]
      intro e he
      simp [Signer.owns_entriesOver a b _ e he, halike]
    | false =>
      rw [if_neg Bool.false_ne_true, List.filter_eq_self]
      intro e he
      simp [Signer.owns_entriesOver a b _ e he, halike,
        Signer.belongsToSignature_entriesOver ha _ e he]
  have hrest : List.filter (fun e => EntryName.belongsToSignature e.name && !b.owns e.name)
      draft.unsignedPart = [] := by
    rw [List.filter_eq_nil_iff]
    intro e he
    simp [(names_unsignedPart draft e he).2]
  rw [otherSignatures, sign_eq, List.filter_append,
    List.filter_cons_of_neg (by simp [DraftEntry.file, hmanifest]), List.filter_append, hothers, hown, hrest, List.append_nil]

/-- Without its signatures a signed archive is the manifest and what belongs to no signature. -/
theorem filter_sign (hs : s.NamesFiles) :
    (draft.sign s).filter (fun e => !EntryName.belongsToSignature e.name) =
      .file EntryName.manifest draft.currentManifest.encode :: draft.unsignedPart := by
  have hsignatures : (draft.otherSignatures s ++ s.entriesOver draft.currentManifest).filter
      (fun e => !EntryName.belongsToSignature e.name) = [] := by
    rw [List.filter_eq_nil_iff]
    intro e he
    rw [belongsToSignature_signatures hs e he]
    exact Bool.false_ne_true
  have hrest : List.filter (fun e => !EntryName.belongsToSignature e.name) draft.unsignedPart =
      draft.unsignedPart := by
    rw [List.filter_eq_self]
    intro e he
    rw [(names_unsignedPart draft e he).2, Bool.not_false]
  have hmanifest : (!EntryName.belongsToSignature EntryName.manifest) = true := by decide
  rw [sign_eq, List.filter_append, List.filter_cons_of_pos (by exact hmanifest), hsignatures, hrest,
    List.singleton_append]

/-- Names of files that belong to no signature are those of entries that do not. -/
theorem oneLine_unsignedPart (h : ∀ e ∈ draft, e.content.isSome = true →
      EntryName.isManifest e.name = false → EntryName.belongsToSignature e.name = false →
      Text.OneLine e.name) :
    ∀ f ∈ files draft.unsignedPart, Text.OneLine f.1 := by
  rintro ⟨name, content⟩ hf
  have hmem := mem_files_iff.1 hf
  obtain ⟨hmanifest, hsignature⟩ := names_unsignedPart draft _ hmem
  exact h _ (List.mem_of_mem_filter hmem) rfl hmanifest hsignature

/-! ### Archives that were created, updated and signed -/

/-- What holds of an archive that was created, updated and signed. -/
structure Sound (draft : ArchiveDraft) : Prop where
  named : ∀ e ∈ draft, e.WellNamed
  distinct : (draft.map DraftEntry.name).Nodup
  oneLine : ∀ f ∈ files draft.unsignedPart, Text.OneLine f.1
  manifest : draft.manifest.Writable

namespace Sound

/-- The manifest that signing writes may be written. -/
theorem currentManifest_writable (h : draft.Sound) : draft.currentManifest.Writable := by
  rw [currentManifest, foldl_stateDigest]
  exact h.manifest.refreshed h.oneLine

/-- The manifest of a signed archive is the one that was written. -/
theorem manifest_sign (h : draft.Sound) (s : Signer) :
    (draft.sign s).manifest = draft.currentManifest := by
  have hfind : (draft.sign s).find? (fun e => EntryName.isManifest e.name) =
      some (.file EntryName.manifest draft.currentManifest.encode) := by
    rw [sign_eq, List.cons_append]
    exact List.find?_cons_of_pos SignedDraft.isManifest_manifest
  rw [ArchiveDraft.manifest, hfind]
  exact ManifestDraft.read_encode h.currentManifest_writable

theorem nodup_files (h : draft.Sound) : ((files draft.unsignedPart).map Prod.fst).Nodup :=
  nodup_names_files (h.distinct.sublist (List.filter_sublist.map _))

/-- Whoever signs next writes the same manifest. -/
theorem currentManifest_sign (h : draft.Sound) (hs : s.NamesFiles) :
    (draft.sign s).currentManifest = draft.currentManifest := by
  rw [currentManifest, foldl_stateDigest, unsignedPart_sign hs, h.manifest_sign, currentManifest,
    foldl_stateDigest, ManifestDraft.refreshed_refreshed h.nodup_files]

end Sound

/-! ### Distinct names -/

/-- Entries told apart by their names have no name in common. -/
theorem disjoint_names {front rest : ArchiveDraft} (p : String → Bool)
    (hfront : ∀ e ∈ front, p e.name = true) (hrest : ∀ e ∈ rest, p e.name = false) :
    (front.map DraftEntry.name).Disjoint (rest.map DraftEntry.name) := by
  intro name hleft hright
  obtain ⟨x, hx, rfl⟩ := List.mem_map.1 hleft
  obtain ⟨y, hy, hname⟩ := List.mem_map.1 hright
  have hfound := hrest y hy
  rw [hname, hfront x hx] at hfound
  cases hfound

theorem nodup_names_sign (h : (draft.map DraftEntry.name).Nodup) (hs : s.NamesFiles) :
    ((draft.sign s).map DraftEntry.name).Nodup := by
  have hpart : ∀ p : DraftEntry → Bool, ((draft.filter p).map DraftEntry.name).Nodup :=
    fun p => h.sublist (List.filter_sublist.map _)
  have hown : ((s.entriesOver draft.currentManifest).map DraftEntry.name).Nodup := by
    have hdiffer : s.signatureFileName ≠ s.blockName := by
      intro hsame
      have hblock := Signer.isBlock_blockName hs
      rw [← hsame, Signer.isBlock_signatureFileName] at hblock
      cases hblock
    simpa [Signer.entriesOver, DraftEntry.file] using hdiffer
  have hsignatures : ((draft.otherSignatures s ++ s.entriesOver draft.currentManifest).map
      DraftEntry.name).Nodup := by
    rw [List.map_append]
    refine (hpart _).append hown (disjoint_names (fun name => !s.owns name) ?_ ?_)
    · intro e he
      simp [not_owns_otherSignatures draft s e he]
    · intro e he
      simp [Signer.owns_entriesOver s s _ e he, Text.alike_refl]
  have hmanifest : EntryName.manifest ∉ (draft.otherSignatures s ++
      s.entriesOver draft.currentManifest).map DraftEntry.name := by
    intro hmem
    obtain ⟨e, he, hname⟩ := List.mem_map.1 hmem
    have hsignature := belongsToSignature_signatures hs e he
    rw [hname, SignedDraft.belongsToSignature_manifest] at hsignature
    cases hsignature
  have hfront : (List.map DraftEntry.name (.file EntryName.manifest draft.currentManifest.encode ::
      (draft.otherSignatures s ++ s.entriesOver draft.currentManifest))).Nodup := by
    rw [List.map_cons]
    exact List.nodup_cons.2 ⟨hmanifest, hsignatures⟩
  rw [sign_eq, List.map_append]
  refine hfront.append (hpart _) (disjoint_names
    (fun name => EntryName.isManifest name || EntryName.belongsToSignature name) ?_ ?_)
  · refine List.forall_mem_cons.2 ⟨?_, fun e he => ?_⟩
    · exact Bool.or_eq_true_iff.2 (Or.inl SignedDraft.isManifest_manifest)
    · rw [belongsToSignature_signatures hs e he, Bool.or_true]
  · intro e he
    simp [names_unsignedPart draft e he]

theorem wellNamed_sign (h : ∀ e ∈ draft, e.WellNamed) (s : Signer) :
    ∀ e ∈ draft.sign s, e.WellNamed := by
  intro e he
  rcases mem_sign he with rfl | rfl | rfl | hold
  · exact DraftEntry.wellNamed_file (by decide) _
  · exact DraftEntry.wellNamed_file (Signer.isDirectory_signatureFileName s) _
  · exact DraftEntry.wellNamed_file (Signer.isDirectory_blockName s) _
  · exact h e hold

/-- A signed archive fits if the signer's names and blocks are not too long, and the manifest is
small and has not too many sections. -/
theorem fits_sign (h : ∀ e ∈ draft, e.Fits) (hs : s.Brief)
    (hmanifest : draft.currentManifest.encode.length ≤ DraftEntry.maxContent)
    (hnames : ∀ t ∈ draft.currentManifest.sections, t.1.toList.length ≤ 250)
    (hcount : draft.currentManifest.sections.length ≤ 100) :
    ∀ e ∈ draft.sign s, e.Fits := by
  have hsignatureFile : draft.currentManifest.signatureFile.encode.length ≤
      DraftEntry.maxContent := by
    have hlength := ManifestDraft.length_encode_signatureFile_le fun t ht =>
      Text.length_utf8_le_of_short (hnames t ht)
    rw [DraftEntry.maxContent]
    omega
  have hname : 1000 ≤ DraftEntry.maxName := by decide
  have hblock : 2 ^ 20 ≤ DraftEntry.maxContent := by decide
  have hshort : (Text.utf8 EntryName.manifest).length ≤ 1000 :=
    Text.length_utf8_le_of_short (by decide)
  intro e he
  rcases mem_sign he with rfl | rfl | rfl | hold
  · exact ⟨hshort.trans hname, hmanifest⟩
  · exact ⟨hs.signatureFileName.trans hname, hsignatureFile⟩
  · exact ⟨hs.blockName.trans hname, (hs.block _).trans hblock⟩
  · exact h e hold

/-- Signing an archive that is kept leaves the file of the signed one, if this fits. -/
theorem Kept.sign_file (h : draft.Kept) (hs : s.NamesFiles)
    (hfits : ∀ e ∈ draft.sign s, e.Fits) :
    (FileState.octets (Zip.encode draft)).sign s =
      ⟨.octets (Zip.encode (draft.sign s)), .ok ()⟩ := by
  rw [FileState.sign, FileState.changed, h.stored.draft_octets h.named]
  exact ArchiveDraft.write_eq hfits (wellNamed_sign h.named s) (nodup_names_sign h.distinct hs)

namespace Sound

/-- A file that is neither the manifest nor of a signature has a name of one line. -/
theorem oneLine_of_mem (h : draft.Sound) {e : DraftEntry} (he : e ∈ draft)
    (hcontent : e.content.isSome = true) (hmanifest : EntryName.isManifest e.name = false)
    (hsignature : EntryName.belongsToSignature e.name = false) : Text.OneLine e.name := by
  obtain ⟨content, hcontent⟩ := Option.isSome_iff_exists.1 hcontent
  have hmem : e ∈ draft.unsignedPart :=
    List.mem_filter.2 ⟨he, by simp [hmanifest, hsignature]⟩
  have hfile : (e.name, content) ∈ files draft.unsignedPart :=
    mem_files_iff.2 (by rwa [DraftEntry.file, ← hcontent])
  exact h.oneLine _ hfile

/-- A signed archive is sound if its names are distinct. A signer whose files are taken for files
like any others has to have a name of one line. -/
theorem sign_of_distinct (h : draft.Sound) (hs : s.NamesFiles ∨ Text.OneLine s.keyName)
    (hdistinct : ((draft.sign s).map DraftEntry.name).Nodup) : (draft.sign s).Sound where
  named := wellNamed_sign h.named s
  distinct := hdistinct
  oneLine := by
    refine oneLine_unsignedPart fun e he hcontent hmanifest hsignature => ?_
    rcases mem_sign he with rfl | rfl | rfl | hold
    · exact (by decide : Text.OneLine EntryName.manifest)
    · rcases hs with hs | hs
      · exact absurd (Signer.belongsToSignature_signatureFileName hs)
          (Bool.eq_false_iff.1 hsignature)
      · exact Signer.oneLine_signatureFileName hs
    · rcases hs with hs | hs
      · exact absurd (Signer.belongsToSignature_blockName hs) (Bool.eq_false_iff.1 hsignature)
      · exact Signer.oneLine_blockName hs
    · exact h.oneLine_of_mem hold hcontent hmanifest hsignature
  manifest := by
    rw [h.manifest_sign]
    exact h.currentManifest_writable

theorem sign (h : draft.Sound) (hs : s.NamesFiles) : (draft.sign s).Sound :=
  h.sign_of_distinct (Or.inl hs) (nodup_names_sign h.distinct hs)

/-! ### Signing again, and in another order -/

theorem sign_sign (h : draft.Sound) (hs : s.NamesFiles) :
    (draft.sign s).sign s = draft.sign s := by
  have hothers : (draft.sign s).otherSignatures s = draft.otherSignatures s := by
    rw [otherSignatures_sign hs, if_pos (Text.alike_refl _), List.append_nil,
      List.filter_eq_self]
    intro e he
    rw [not_owns_otherSignatures draft s e he, Bool.not_false]
  rw [sign_eq (draft.sign s), h.currentManifest_sign hs, hothers, unsignedPart_sign hs, ← sign_eq]

/-- The signatures that two signers keep of an archive, in the order in which these stand there. -/
def keptByBoth (draft : ArchiveDraft) (a b : Signer) : List DraftEntry :=
  (draft.otherSignatures a).filter fun e => !b.owns e.name

theorem keptByBoth_comm (draft : ArchiveDraft) (a b : Signer) :
    keptByBoth draft a b = keptByBoth draft b a := by
  rw [keptByBoth, keptByBoth, otherSignatures, otherSignatures, List.filter_filter,
    List.filter_filter]
  refine List.filter_congr fun e _ => ?_
  cases EntryName.belongsToSignature e.name <;> cases a.owns e.name <;> cases b.owns e.name <;> rfl

/-- An archive that two signers sign one after the other. -/
theorem sign_sign_of_not_alike (h : draft.Sound) (ha : a.NamesFiles)
    (hapart : Text.alike a.keyName b.keyName = false) :
    (draft.sign a).sign b = .file EntryName.manifest draft.currentManifest.encode ::
      (keptByBoth draft a b ++ a.entriesOver draft.currentManifest ++
        b.entriesOver draft.currentManifest) ++ draft.unsignedPart := by
  rw [sign_eq (draft.sign a), h.currentManifest_sign ha, otherSignatures_sign ha, hapart,
    if_neg Bool.false_ne_true, unsignedPart_sign ha, keptByBoth]

theorem sign_sign_perm (h : draft.Sound) (ha : a.NamesFiles) (hb : b.NamesFiles)
    (hapart : Text.alike a.keyName b.keyName = false) :
    ((draft.sign a).sign b).Perm ((draft.sign b).sign a) := by
  have hswapped : Text.alike b.keyName a.keyName = false := Text.alike_comm _ _ ▸ hapart
  rw [h.sign_sign_of_not_alike ha hapart, h.sign_sign_of_not_alike hb hswapped,
    keptByBoth_comm draft b a, List.append_assoc, List.append_assoc (keptByBoth draft a b)]
  exact ((List.perm_append_comm.append_left _).cons _).append_right _

/-- What is there after two signers have signed is there after one of them has. -/
theorem mem_sign_sign (h : draft.Sound) (ha : a.NamesFiles) {e : DraftEntry}
    (he : e ∈ (draft.sign a).sign b) : e ∈ draft.sign a ∨ e ∈ draft.sign b := by
  have hfiles : b.entriesOver draft.currentManifest ⊆ draft.sign b := by
    rw [sign_eq]
    intro x hx
    exact List.mem_append_left _ (List.mem_cons_of_mem _ (List.mem_append_right _ hx))
  have hmanifest : .file EntryName.manifest draft.currentManifest.encode ∈ draft.sign b := by
    rw [sign_eq]
    exact List.mem_cons_self
  rcases mem_sign he with rfl | rfl | rfl | hold
  · rw [h.currentManifest_sign ha]
    exact Or.inr hmanifest
  · rw [h.currentManifest_sign ha]
    exact Or.inr (hfiles List.mem_cons_self)
  · rw [h.currentManifest_sign ha]
    exact Or.inr (hfiles (List.mem_cons_of_mem _ List.mem_cons_self))
  · exact Or.inl hold

/-- Whoever signs in whatever order, the same is left without the signatures. -/
theorem filter_sign_sign (h : draft.Sound) (ha : a.NamesFiles) (hb : b.NamesFiles) :
    ((draft.sign a).sign b).filter (fun e => !EntryName.belongsToSignature e.name) =
      .file EntryName.manifest draft.currentManifest.encode :: draft.unsignedPart := by
  rw [filter_sign hb, h.currentManifest_sign ha, unsignedPart_sign ha]

end Sound

/-! ### How archives come about -/

section Produced

variable {entries updates : List DraftEntry}

/-- Entries that are written under distinct names after their kinds have these names. -/
theorem distinct_of_written (hnamed : ∀ e ∈ draft, e.WellNamed)
    (h : (draft.map DraftEntry.writtenName).Nodup) : (draft.map DraftEntry.name).Nodup := by
  rwa [map_writtenName hnamed] at h

theorem sound_create (hnamed : ∀ e ∈ entries, e.WellNamed)
    (hlines : ∀ e ∈ entries, e.content.isSome = true → Text.OneLine e.name)
    (hdistinct : ((create entries).map DraftEntry.writtenName).Nodup) :
    (create entries).Sound := by
  have hall : ∀ e ∈ create entries, e.WellNamed :=
    List.forall_mem_cons.2 ⟨DraftEntry.wellNamed_file (by decide) _, hnamed⟩
  have hfind : (create entries).find? (fun e => EntryName.isManifest e.name) =
      some (.file EntryName.manifest ManifestDraft.initial.encode) :=
    List.find?_cons_of_pos SignedDraft.isManifest_manifest
  have hwritable : (ManifestDraft.stating []).Writable :=
    ManifestDraft.writable_stating fun _ hf => absurd hf List.not_mem_nil
  refine ⟨hall, distinct_of_written hall hdistinct, oneLine_unsignedPart ?_, ?_⟩
  · exact List.forall_mem_cons.2
      ⟨fun _ _ _ => by decide, fun e he hcontent _ _ => hlines e he hcontent⟩
  · rw [ArchiveDraft.manifest, hfind]
    change (ManifestDraft.read (ManifestDraft.stating []).encode).Writable
    rw [ManifestDraft.read_encode hwritable]
    exact hwritable

theorem Sound.update (h : draft.Sound) (hupdates : ∀ e ∈ updates, e.Ordinary) :
    (draft.update updates).Sound where
  named := fun e he => (mem_update he).elim (h.named e) fun hnew => (hupdates e hnew).toWellNamed
  distinct := nodup_update h.distinct updates
  oneLine := by
    refine oneLine_unsignedPart fun e he hcontent hmanifest hsignature => ?_
    rcases mem_update he with hold | hnew
    · exact h.oneLine_of_mem hold hcontent hmanifest hsignature
    · exact (hupdates e hnew).oneLine hcontent
  manifest := by
    have hfind : (draft.update updates).find? (fun e => EntryName.isManifest e.name) =
        draft.find? fun e => EntryName.isManifest e.name :=
      find?_update fun e he x hname => by rw [hname, (hupdates e he).notManifest]
    rw [ArchiveDraft.manifest, hfind]
    exact h.manifest

end Produced

end ArchiveDraft

/-! ### How archive files come about -/

namespace FileState

/-- A file that holds an archive because it was created, updated and signed, each time with success.
No file is updated that is the manifest or belongs to a signature. What was written before the last
step was stored. -/
inductive Produced : FileState → ArchiveDraft → Prop
  | created {entries : List DraftEntry} (hnamed : ∀ e ∈ entries, e.WellNamed)
    (hlines : ∀ e ∈ entries, e.content.isSome = true → Text.OneLine e.name)
    (hdone : (FileState.create entries).result = .ok ()) :
    Produced (FileState.create entries).file (.create entries)
  | updated {file : FileState} {draft : ArchiveDraft} {updates : List DraftEntry}
    (h : Produced file draft) (hstored : draft.Stored) (hupdates : ∀ e ∈ updates, e.Ordinary)
    (hdone : (file.update updates).result = .ok ()) :
    Produced (file.update updates).file (draft.update updates)
  | signed {file : FileState} {draft : ArchiveDraft} {s : Signer}
    (h : Produced file draft) (hstored : draft.Stored)
    (hname : s.NamesFiles ∨ Text.OneLine s.keyName) (hdone : (file.sign s).result = .ok ()) :
    Produced (file.sign s).file (draft.sign s)

end FileState

namespace ArchiveDraft

variable {draft : ArchiveDraft} {s : Signer}

theorem Sound.kept (h : draft.Sound) (hstored : draft.Stored) : draft.Kept :=
  ⟨h.named, h.distinct, hstored⟩

/-- A change of a stored archive is written. -/
theorem Sound.changed (h : draft.Sound) (hstored : draft.Stored)
    (change : ArchiveDraft → ArchiveDraft) :
    (FileState.octets (Zip.encode draft)).changed change = FileState.write (change draft) := by
  rw [FileState.changed, hstored.draft_octets h.named]

end ArchiveDraft

/-- A file that was created, updated and signed is that of a sound archive. -/
theorem FileState.Produced.sound {file : FileState} {draft : ArchiveDraft}
    (h : file.Produced draft) : file = .octets (Zip.encode draft) ∧ draft.Sound := by
  induction h with
  | created hnamed hlines hdone =>
    obtain ⟨hdistinct, -⟩ := ArchiveDraft.write_done_iff.1 hdone
    exact ⟨congrArg FileChange.file (ArchiveDraft.write_of_done hdone),
      ArchiveDraft.sound_create hnamed hlines hdistinct⟩
  | updated h hstored hupdates hdone ih =>
    obtain ⟨rfl, hsound⟩ := ih
    rw [FileState.update, hsound.changed hstored] at hdone ⊢
    exact ⟨congrArg FileChange.file (ArchiveDraft.write_of_done hdone), hsound.update hupdates⟩
  | signed h hstored hname hdone ih =>
    obtain ⟨rfl, hsound⟩ := ih
    rw [FileState.sign, hsound.changed hstored] at hdone ⊢
    obtain ⟨hdistinct, -⟩ := ArchiveDraft.write_done_iff.1 hdone
    have hnamed := ArchiveDraft.wellNamed_sign hsound.named
    have hnames := ArchiveDraft.distinct_of_written (hnamed _) hdistinct
    exact ⟨congrArg FileChange.file (ArchiveDraft.write_of_done hdone),
      hsound.sign_of_distinct hname hnames⟩

/-- Signing again changes nothing, and the order of two signers changes the order of their
signatures only. An archive is created, updated and signed in any way. A signer whose files are
recognised and who signs it twice leaves what signing once leaves, entry by entry. Two such signers
with names that are not alike leave the same entries in either order, those that belong to no
signature also in the same order. As long as archives with one signature fit and are read as they
were written, this is so of the files, and all these signatures succeed. -/
theorem signing_repeats_and_commutes {file : FileState} {draft : ArchiveDraft} {a b : Signer}
    (h : file.Produced draft) (ha : a.NamesFiles) (hb : b.NamesFiles)
    (hapart : Text.alike a.keyName b.keyName = false) :
    let ab := (draft.sign a).sign b
    let ba := (draft.sign b).sign a
    (draft.sign a).sign a = draft.sign a ∧
    ab.Perm ba ∧
    ab.filter (fun e => !EntryName.belongsToSignature e.name) =
      ba.filter (fun e => !EntryName.belongsToSignature e.name) ∧
    (draft.Stored → (draft.sign a).Stored → (draft.sign b).Stored →
      file.draft = .ok draft ∧
      file.sign a = ⟨.octets (Zip.encode (draft.sign a)), .ok ()⟩ ∧
      (file.sign a).file.sign a = file.sign a ∧
      (file.sign a).file.sign b = ⟨.octets (Zip.encode ab), .ok ()⟩ ∧
      (file.sign b).file.sign a = ⟨.octets (Zip.encode ba), .ok ()⟩) := by
  obtain ⟨rfl, hsound⟩ := h.sound
  intro ab ba
  refine ⟨hsound.sign_sign ha, hsound.sign_sign_perm ha hb hapart, ?_, ?_⟩
  · exact (hsound.filter_sign_sign ha hb).trans (hsound.filter_sign_sign hb ha).symm
  · intro hstored hstoredA hstoredB
    have hfileA := (hsound.kept hstored).sign_file ha hstoredA.fits
    have hfileB := (hsound.kept hstored).sign_file hb hstoredB.fits
    have hkeptA := (hsound.sign ha).kept hstoredA
    have hkeptB := (hsound.sign hb).kept hstoredB
    have hfitsAB : ∀ e ∈ ab, e.Fits := fun e he =>
      (hsound.mem_sign_sign ha he).elim (hstoredA.fits e) (hstoredB.fits e)
    have hfitsBA : ∀ e ∈ ba, e.Fits := fun e he =>
      (hsound.mem_sign_sign hb he).elim (hstoredB.fits e) (hstoredA.fits e)
    have hsame := hsound.sign_sign ha
    have htwice := hkeptA.sign_file ha (hsame.symm ▸ hstoredA.fits)
    rw [hsame] at htwice
    rw [hfileA, hfileB]
    exact ⟨hstored.draft_octets hsound.named, rfl, htwice, hkeptA.sign_file hb hfitsAB,
      hkeptB.sign_file ha hfitsBA⟩

/-- The two sample signers leave the same entries in either order. -/
theorem samples_sign_in_either_order :
    let draft := ArchiveDraft.create sampleEntries
    let file := (FileState.create sampleEntries).file
    let ab := (draft.sign .first).sign .second
    let ba := (draft.sign .second).sign .first
    file.Produced draft ∧ Signer.first.NamesFiles ∧ Signer.second.NamesFiles ∧
      Text.alike Signer.first.keyName Signer.second.keyName = false ∧ ab.Perm ba ∧
      (file.sign .first).file.sign .first = file.sign .first ∧
      (file.sign .first).file.sign .second = ⟨.octets (Zip.encode ab), .ok ()⟩ ∧
      (file.sign .second).file.sign .first = ⟨.octets (Zip.encode ba), .ok ()⟩ := by
  intro draft file ab ba
  have hnobody : ∀ s ∈ ([] : List Signer), s ∈ [Signer.first, Signer.second] := nofun
  have hcreated : (SignedDraft.created sampleEntries).draft.Stored :=
    stored_samples hnobody (by decide) _ List.mem_cons_self
  have hdone : (FileState.create sampleEntries).result = .ok () := by
    rw [SignedDraft.create_file (SignedDraft.wellFormed_created_plain plain_sampleEntries) hcreated]
  have hproduced : file.Produced draft := .created (by decide) (by decide) hdone
  have hfirst : Signer.first.NamesFiles := by decide
  have hsecond : Signer.second.NamesFiles := by decide
  have hapart : Text.alike Signer.first.keyName Signer.second.keyName = false := by decide
  have hstored : ∀ s ∈ [Signer.first, Signer.second], draft.Stored ∧ (draft.sign s).Stored := by
    intro s hs
    have hall := stored_samples (List.forall_mem_singleton.2 hs) (by simp : [s].length ≤ 100)
    exact ⟨hall draft List.mem_cons_self, hall _ (by simp [List.scanl, draft])⟩
  obtain ⟨hdraft, hstoredA⟩ := hstored .first List.mem_cons_self
  have hstoredB := (hstored .second (by simp)).2
  obtain ⟨-, hperm, -, hfiles⟩ := signing_repeats_and_commutes hproduced hfirst hsecond hapart
  obtain ⟨-, -, htwice, hab, hba⟩ := hfiles hdraft hstoredA hstoredB
  exact ⟨hproduced, hfirst, hsecond, hapart, hperm, htwice, hab, hba⟩

end JarSigners
