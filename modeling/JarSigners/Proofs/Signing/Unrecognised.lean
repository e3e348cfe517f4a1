import JarSigners.Proofs.Signing.RsaSigner

/-!
# Signatures that are not recognised

The block of a signer whose name is empty or has a slash in it is not taken for a block when the
archive is read. So such signers are not found, and changes of what only they have signed are not
noticed (`ArchiveDraft.unrecognised_signers_are_not_found`).
-/

set_option autoImplicit false

namespace JarSigners

/-- Where the name is empty or has a slash, the block is not recognised. -/
theorem Signer.isBlock_blockName_eq_false {s : Signer} (h : ¬ s.NamesFiles) :
    EntryName.isBlock s.blockName = false := by
  have hfile : s.blockName.toList.drop EntryName.metadataDirectory.toList.length =
      s.keyName.toList.map Char.toUpper ++ '.' :: s.key.kind.blockEnding.toList := by
    rw [toList_blockName, toList_stem, List.append_assoc, List.drop_left]
  have hbad : s.keyName = "" ∨ '/' ∈ s.keyName.toList := by
    by_contra hgood
    rw [not_or] at hgood
    exact h ⟨hgood.1, hgood.2⟩
  simp only [EntryName.isBlock, hfile, Text.cutAtLast_mark (no_point_blockEnding _)]
  rcases hbad with hempty | hslash
  · simp [hempty]
  · have hmem : '/' ∈ s.keyName.toList.map Char.toUpper :=
      List.mem_map.2 ⟨'/', hslash, by decide⟩
    simp [hmem]

namespace ArchiveDraft

/-! ### Archives without blocks -/

/-- No entry has the name of a block. -/
def Blockless (draft : ArchiveDraft) : Prop :=
  ∀ e ∈ draft, EntryName.isBlock e.name = false

variable {draft : ArchiveDraft} {limits : SizeLimits}

theorem Blockless.update (h : draft.Blockless) {updates : List DraftEntry}
    (hupdates : Blockless updates) : (draft.update updates).Blockless :=
  fun e he => (mem_update he).elim (h e) (hupdates e)

/-- What is in an archive that was signed. -/
theorem mem_sign {s : Signer} {e : DraftEntry} (h : e ∈ draft.sign s) :
    e = .file EntryName.manifest draft.currentManifest.encode ∨
      e = .file s.signatureFileName draft.currentManifest.signatureFile.encode ∨
      e = .file s.blockName (s.block false draft.currentManifest.signatureFile.encode) ∨
      e ∈ draft := by
  simp only [sign, List.mem_append, List.mem_cons, List.not_mem_nil, or_false] at h
  rcases h with ((h | h) | h | h) | h
  · exact Or.inl h
  · exact Or.inr (Or.inr (Or.inr (List.mem_of_mem_filter h)))
  · exact Or.inr (Or.inl h)
  · exact Or.inr (Or.inr (Or.inl h))
  · exact Or.inr (Or.inr (Or.inr (List.mem_of_mem_filter h)))

theorem Blockless.sign (h : draft.Blockless) {s : Signer} (hs : ¬ s.NamesFiles) :
    (draft.sign s).Blockless := by
  intro e he
  rcases mem_sign he with rfl | rfl | rfl | hold
  · exact (by decide : EntryName.isBlock EntryName.manifest = false)
  · exact Signer.isBlock_signatureFileName s
  · exact Signer.isBlock_blockName_eq_false hs
  · exact h e hold

theorem Blockless.pairedBlocks_eq (h : draft.Blockless) (hnamed : ∀ e ∈ draft, e.WellNamed) :
    pairedBlocks (draft.map DraftEntry.entry) = [] := by
  rw [pairedBlocks_eq_filterMap, List.filterMap_map, List.filterMap_eq_nil_iff]
  intro e he
  have hname : EntryName.isBlock e.entry.name = false := by
    rw [DraftEntry.entry, (hnamed e he).writtenName_eq]
    exact h e he
  rw [Function.comp_apply, pair?, if_neg (Bool.eq_false_iff.1 hname)]

/-- Without blocks every file can be read, and is signed by nobody. -/
theorem Blockless.collected (h : draft.Blockless) (hkept : draft.Kept)
    (hlimits : limits.Hold draft) :
    (Listing.ofFile limits (.octets (Zip.encode draft))).result = .ok [] := by
  have hpairs := h.pairedBlocks_eq hkept.named
  have hload := verifySignatures_eq_none limits.metadata (Or.inl hpairs)
  have hgranted : ∀ e ∈ (draft.map DraftEntry.entry).filter Entry.isContent,
      Granted [] (answerTo (draft.map DraftEntry.entry) limits e) := by
    intro e he
    obtain ⟨hmem, hcontent⟩ := List.mem_filter.1 he
    obtain ⟨x, hx, rfl⟩ := List.mem_map.1 hmem
    rw [(hkept.named x hx).isContent_entry, DraftEntry.isContent, Bool.and_eq_true,
      Bool.not_eq_true'] at hcontent
    have hadmits := hlimits.entries x hx
    rw [hcontent.2] at hadmits
    have hcheck := (Signatures.loaded_none (Or.inl hpairs)).checkEntry_octets
      (e := x.entry) rfl hadmits
    rw [coveringSigners_eq_nil (Or.inl hpairs)] at hcheck
    exact ⟨_, (answerTo_of_load hload _).trans hcheck, rfl⟩
  have hanswers := List.forall_mem_map.2 hgranted
  rw [hkept.stored.collected]
  by_cases hnone : ((draft.map DraftEntry.entry).filter Entry.isContent).map
      (answerTo (draft.map DraftEntry.entry) limits) = []
  · rw [hnone]
    rfl
  · rw [sharedAnswers_of_granted hnone hanswers]
    rfl

/-! ### Signing in turn without blocks -/

section InTurn

variable {signers : List Signer}

/-- A file is signed in turn as its archive is, as long as the archive is kept. -/
theorem signInTurn_kept
    (hkept : ∀ d ∈ signers.scanl ArchiveDraft.sign draft, d.Kept) :
    (FileState.octets (Zip.encode draft)).signInTurn signers =
      ⟨.octets (Zip.encode (signers.foldl ArchiveDraft.sign draft)), .ok ()⟩ := by
  induction signers generalizing draft with
  | nil => rfl
  | cons s signers ih =>
    rw [List.scanl_cons, List.forall_mem_cons] at hkept
    have hnext : (draft.sign s).Kept := hkept.2 _ (List.mem_of_head? List.head?_scanl)
    have hsign : (FileState.octets (Zip.encode draft)).sign s =
        ⟨.octets (Zip.encode (draft.sign s)), .ok ()⟩ := hkept.1.changed hnext
    rw [FileState.signInTurn, hsign]
    exact ih hkept.2

theorem Blockless.foldl_sign (h : draft.Blockless) (hsigners : ∀ s ∈ signers, ¬ s.NamesFiles) :
    (signers.foldl ArchiveDraft.sign draft).Blockless := by
  induction signers generalizing draft with
  | nil => exact h
  | cons s signers ih =>
    obtain ⟨hs, hothers⟩ := List.forall_mem_cons.1 hsigners
    exact ih (h.sign hs) hothers

/-- Signers without a name, or with a slash in it, sign an archive and are not found. -/
theorem unrecognised_signers_are_not_found (h : draft.Blockless)
    (hsigners : ∀ s ∈ signers, ¬ s.NamesFiles)
    (hkept : ∀ d ∈ signers.scanl ArchiveDraft.sign draft, d.Kept)
    (hlimits : limits.Hold (signers.foldl ArchiveDraft.sign draft)) :
    let signed := (FileState.octets (Zip.encode draft)).signInTurn signers
    signed.result = .ok () ∧ (Listing.ofFile limits signed.file).result = .ok [] := by
  have hlast := hkept _ (List.mem_of_getLast? List.getLast?_scanl)
  intro signed
  have hsigned : signed = ⟨.octets (Zip.encode (signers.foldl ArchiveDraft.sign draft)), .ok ()⟩ :=
    signInTurn_kept hkept
  rw [hsigned]
  exact ⟨rfl, (h.foldl_sign hsigners).collected hlast hlimits⟩

end InTurn

/-! ### Two signers who are not recognised -/

theorem contents_sign {files : List (String × Bytes)} {s : Signer}
    (hmanifest : draft.currentManifest = ManifestDraft.stating files)
    (hnames : ∀ f ∈ files, (Text.utf8 f.1).length ≤ 1000) (hcount : files.length ≤ 100)
    (hs : s.Brief) (h : ∀ e ∈ draft, e.writtenContent.length ≤ 2 ^ 20) :
    ∀ e ∈ draft.sign s, e.writtenContent.length ≤ 2 ^ 20 := by
  have hencode := ManifestDraft.length_encode_stating_le hnames
  have hsignatureFile := ManifestDraft.length_encode_signatureFile_stating_le hnames
  intro e he
  rcases mem_sign he with rfl | rfl | rfl | hold
  · change draft.currentManifest.encode.length ≤ 2 ^ 20
    rw [hmanifest]
    omega
  · change draft.currentManifest.signatureFile.encode.length ≤ 2 ^ 20
    rw [hmanifest]
    omega
  · exact hs.block _
  · exact h e hold

end ArchiveDraft

namespace Signer

/-- A signer without a name. -/
def blank : Signer := .plain "" 3 "Blank"

/-- A signer with a slash in the name. -/
def nested : Signer := .plain "x/y" 4 "Nested"

def knownBlank : Known :=
  .plain "" 3 "Blank" (by decide +kernel) (by decide +kernel)
    (Text.length_utf8_le_of_short (by decide)) (Text.length_utf8_le_of_short (by decide))

def knownNested : Known :=
  .plain "x/y" 4 "Nested" (by decide +kernel) (by decide +kernel)
    (Text.length_utf8_le_of_short (by decide)) (Text.length_utf8_le_of_short (by decide))

theorem honest_blank : blank.Honest := knownBlank.honest

theorem honest_nested : nested.Honest := knownNested.honest

theorem brief_blank : blank.Brief := knownBlank.brief

theorem brief_nested : nested.Brief := knownNested.brief

end Signer

namespace Unrecognised

/-- An archive of one file. -/
def entries : ArchiveDraft := [.file "a.txt" (Bytes.ofAscii "a")]

/-- Other contents for this file. -/
def updates : List DraftEntry := [.file "a.txt" (Bytes.ofAscii "b")]

/-- What the signer without a name puts in front of the file. -/
def front : ArchiveDraft :=
  ((SignedDraft.created entries).signedBy .blank).front

theorem ordinary : ∀ rest ∈ [entries, updates], ∀ e ∈ rest, e.Ordinary := by
  decide

theorem create_sign_blank : (ArchiveDraft.create entries).sign .blank = front ++ entries := by
  have h := SignedDraft.wellFormed_created (ordinary entries List.mem_cons_self) (by decide)
  rw [← SignedDraft.draft_created, SignedDraft.draft_sign h]
  rfl

theorem update_front : (front ++ entries).update updates = front ++ updates :=
  ArchiveDraft.update_append (by decide) entries

/-- What the signer without a name has signed is not digested again. -/
theorem currentManifest_front {rest : ArchiveDraft} (hrest : rest ∈ [entries, updates]) :
    (front ++ rest).currentManifest = ManifestDraft.stating rest.files := by
  have hfile : front.find? (fun e => EntryName.isManifest e.name) =
      some (.file EntryName.manifest (ManifestDraft.stating entries.files).encode) :=
    List.find?_cons_of_pos SignedDraft.isManifest_manifest
  have hmanifest : ArchiveDraft.manifest (front ++ rest) = .stating entries.files := by
    rw [ArchiveDraft.manifest, List.find?_append, hfile]
    exact ManifestDraft.read_encode (ManifestDraft.writable_stating (by decide))
  have hfront : ∀ m, front.foldl ArchiveDraft.stateDigest m = m :=
    SignedDraft.foldl_stateDigest_of_signatures (by decide)
  have hnames : ∀ rest ∈ [entries, updates],
      entries.files.map Prod.fst <+: (ArchiveDraft.files rest).map Prod.fst ∧
        ((ArchiveDraft.files rest).map Prod.fst).Nodup := by
    decide
  obtain ⟨hfirst, hdistinct⟩ := hnames rest hrest
  rw [ArchiveDraft.currentManifest, hmanifest, List.foldl_append, hfront,
    SignedDraft.foldl_stateDigest_rest (ordinary rest hrest)]
  exact ManifestDraft.foldl_set_stating [] entries.files hfirst hdistinct

/-! ### These archives are kept -/

/-- What the archives are made of is short. -/
theorem short_rests : ∀ rest ∈ [entries, updates],
    (∀ f ∈ ArchiveDraft.files rest, (Text.utf8 f.1).length ≤ 1000) ∧
      (ArchiveDraft.files rest).length ≤ 100 ∧
      ∀ e ∈ rest, e.writtenContent.length ≤ 2 ^ 20 := by
  decide +kernel

/-- The archives on the way. -/
def onTheWay : List ArchiveDraft :=
  [ArchiveDraft.create entries, front ++ entries, front ++ updates,
    (front ++ entries).sign .nested, (front ++ updates).sign .nested,
    ((front ++ entries).sign .nested).update updates]

/-- They have few entries, whose names are different, short and as they may be. -/
theorem names_onTheWay : ∀ d ∈ onTheWay, (∀ e ∈ d, e.WellNamed) ∧ (d.map DraftEntry.name).Nodup ∧
    d.length < 2 ^ 11 ∧ ∀ e ∈ d, (Text.utf8 e.name).length ≤ 1000 := by
  decide +kernel

/-- So they are kept if what their entries hold is short. -/
theorem kept_of_contents {d : ArchiveDraft} (hd : d ∈ onTheWay)
    (hcontents : ∀ e ∈ d, e.writtenContent.length ≤ 2 ^ 20) : d.Kept := by
  obtain ⟨hnamed, hdistinct, hcount, hnames⟩ := names_onTheWay d hd
  exact ArchiveDraft.kept_of_small hnamed hdistinct hcount hnames hcontents

theorem contents_front {rest : ArchiveDraft} (hrest : rest ∈ [entries, updates]) :
    ∀ e ∈ front ++ rest, e.writtenContent.length ≤ 2 ^ 20 := by
  obtain ⟨hnames, -, -⟩ := short_rests entries List.mem_cons_self
  obtain ⟨-, -, hcontents⟩ := short_rests rest hrest
  have hmanifest := (ManifestDraft.length_encode_stating_le hnames).trans
    (by decide : 1000 + entries.files.length * 6000 ≤ 2 ^ 20)
  have hsignatureFile := (ManifestDraft.length_encode_signatureFile_stating_le hnames).trans
    (by decide : 5000 + entries.files.length * 6000 ≤ 2 ^ 20)
  have hfront : ∀ e ∈ front, e.writtenContent.length ≤ 2 ^ 20 := by
    refine SignedDraft.forall_mem_front hmanifest (List.forall_mem_singleton.2 ⟨?_, ?_⟩)
    · exact hsignatureFile
    · exact Signer.brief_blank.block _
  exact fun e he => (List.mem_append.1 he).elim (hfront e) (hcontents e)

theorem contents_front_sign {rest : ArchiveDraft} (hrest : rest ∈ [entries, updates]) :
    ∀ e ∈ (front ++ rest).sign .nested, e.writtenContent.length ≤ 2 ^ 20 := by
  obtain ⟨hnames, hcount, -⟩ := short_rests rest hrest
  exact ArchiveDraft.contents_sign (currentManifest_front hrest) hnames hcount
    Signer.brief_nested (contents_front hrest)

theorem kept_create : (ArchiveDraft.create entries).Kept :=
  kept_of_contents List.mem_cons_self (by decide +kernel)

theorem kept_front : ∀ rest ∈ [entries, updates], (front ++ rest).Kept := by
  intro rest hrest
  refine kept_of_contents ?_ (contents_front hrest)
  simp only [List.mem_cons, List.not_mem_nil, or_false] at hrest
  rcases hrest with rfl | rfl <;> simp [onTheWay]

theorem kept_front_sign : ∀ rest ∈ [entries, updates], ((front ++ rest).sign .nested).Kept := by
  intro rest hrest
  refine kept_of_contents ?_ (contents_front_sign hrest)
  simp only [List.mem_cons, List.not_mem_nil, or_false] at hrest
  rcases hrest with rfl | rfl <;> simp [onTheWay]

theorem kept_front_sign_update : (((front ++ entries).sign .nested).update updates).Kept := by
  refine kept_of_contents (by simp [onTheWay]) fun e he => ?_
  exact (ArchiveDraft.mem_update he).elim (contents_front_sign List.mem_cons_self e)
    ((by decide : ∀ e ∈ updates, e.writtenContent.length ≤ 2 ^ 20) e)

/-! ### Making them -/

theorem blockless_front : ∀ rest ∈ [entries, updates], (front ++ rest).Blockless := by
  have hnames : ∀ rest ∈ [entries, updates], ∀ e ∈ front ++ rest,
      EntryName.isBlock e.name = false := by
    decide
  exact hnames

theorem create_entries :
    FileState.create entries = ⟨.octets (Zip.encode (ArchiveDraft.create entries)), .ok ()⟩ :=
  kept_create.write_eq

theorem sign_created : (FileState.octets (Zip.encode (ArchiveDraft.create entries))).sign .blank =
    ⟨.octets (Zip.encode (front ++ entries)), .ok ()⟩ := by
  have hkept : ((ArchiveDraft.create entries).sign .blank).Kept := by
    rw [create_sign_blank]
    exact kept_front entries List.mem_cons_self
  rw [← create_sign_blank]
  exact kept_create.changed hkept

theorem update_signed : (FileState.octets (Zip.encode (front ++ entries))).update updates =
    ⟨.octets (Zip.encode (front ++ updates)), .ok ()⟩ := by
  have hkept : ((front ++ entries).update updates).Kept := by
    rw [update_front]
    exact kept_front updates (by simp)
  rw [← update_front]
  exact (kept_front entries List.mem_cons_self).changed hkept

theorem sign_front {rest : ArchiveDraft} (hrest : rest ∈ [entries, updates]) :
    (FileState.octets (Zip.encode (front ++ rest))).sign .nested =
      ⟨.octets (Zip.encode ((front ++ rest).sign .nested)), .ok ()⟩ :=
  (kept_front rest hrest).changed (kept_front_sign rest hrest)

theorem signInTurn_created :
    (FileState.octets (Zip.encode (ArchiveDraft.create entries))).signInTurn [.blank, .nested] =
      ⟨.octets (Zip.encode ((front ++ entries).sign .nested)), .ok ()⟩ := by
  have hkept : ∀ d ∈ [Signer.blank, Signer.nested].scanl ArchiveDraft.sign
      (ArchiveDraft.create entries), d.Kept := by
    rw [List.scanl_cons, List.scanl_cons, List.scanl_nil, create_sign_blank, List.forall_mem_cons,
      List.forall_mem_cons, List.forall_mem_singleton]
    exact ⟨kept_create, kept_front entries List.mem_cons_self,
      kept_front_sign entries List.mem_cons_self⟩
  have hsigned := ArchiveDraft.signInTurn_kept hkept
  rw [List.foldl_cons, List.foldl_cons, List.foldl_nil, create_sign_blank] at hsigned
  exact hsigned

theorem update_front_sign :
    (FileState.octets (Zip.encode ((front ++ entries).sign .nested))).update updates =
      ⟨.octets (Zip.encode (((front ++ entries).sign .nested).update updates)), .ok ()⟩ :=
  (kept_front_sign entries List.mem_cons_self).changed kept_front_sign_update

theorem blockless_front_sign {rest : ArchiveDraft} (hrest : rest ∈ [entries, updates]) :
    ((front ++ rest).sign .nested).Blockless :=
  (blockless_front rest hrest).sign (by decide)

/-- The changed file is no cause for complaint where the archive is signed before the update. -/
theorem collected_updated : (Listing.ofFile .none (.octets (Zip.encode
    (((front ++ entries).sign .nested).update updates)))).result = .ok [] := by
  have hupdates : ArchiveDraft.Blockless updates :=
    (by decide : ∀ e ∈ updates, EntryName.isBlock e.name = false)
  exact ((blockless_front_sign List.mem_cons_self).update hupdates).collected kept_front_sign_update
    (SizeLimits.hold_none _)

/-- Nor is it where the update is between two signatures. -/
theorem collected_signed_again : (Listing.ofFile .none (.octets (Zip.encode
    ((front ++ updates).sign .nested)))).result = .ok [] :=
  (blockless_front_sign (by simp)).collected (kept_front_sign updates (by simp))
    (SizeLimits.hold_none _)

end Unrecognised

end JarSigners
