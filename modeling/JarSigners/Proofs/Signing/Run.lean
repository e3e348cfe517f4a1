import JarSigners.Proofs.Signing.SignedDraft
import JarSigners.Proofs.Steps

/-!
# Making, signing and updating archive files

As long as everything fits and reading a file gives back what was written to it
(`ArchiveDraft.Stored`), every change of an archive file that was created, signed and updated
succeeds, and leaves the file of the changed archive. After signing in turn the signatures are those of the last uses of all signers' names.
-/

set_option autoImplicit false

namespace JarSigners

/-- A draft is stored if the writer has room for every entry, and the reader returns the entries that
were written. -/
structure ArchiveDraft.Stored (draft : ArchiveDraft) : Prop where
  fits : ∀ e ∈ draft, e.Fits
  read : Zip.entries? (Zip.encode draft) = some (draft.map DraftEntry.entry)

namespace ArchiveDraft

variable {draft : ArchiveDraft}

/-- Writing is carried out exactly on entries that fit and have distinct names. -/
theorem write_done_iff : (FileState.write draft).result = .ok () ↔
    (draft.map DraftEntry.writtenName).Nodup ∧ ∀ e ∈ draft, e.Fits := by
  have hrefusal := @refusal?_eq_none_iff draft []
  simp only [List.not_mem_nil, not_false_eq_true, true_and] at hrefusal
  rw [← hrefusal, FileState.write]
  cases draft.refusal? [] <;> simp

/-- What it leaves then is the whole archive. -/
theorem write_of_done (h : (FileState.write draft).result = .ok ()) :
    FileState.write draft = ⟨.octets (Zip.encode draft), .ok ()⟩ := by
  rw [FileState.write] at h ⊢
  cases hrefusal : draft.refusal? [] with
  | some failure =>
    rw [hrefusal] at h
    cases h
  | none => rw [writable_of_refusal? hrefusal]

/-- Entries that fit and have distinct names after their kinds are all written. -/
theorem write_eq (hfits : ∀ e ∈ draft, e.Fits) (hnamed : ∀ e ∈ draft, e.WellNamed)
    (hdistinct : (draft.map DraftEntry.name).Nodup) :
    FileState.write draft = ⟨.octets (Zip.encode draft), .ok ()⟩ :=
  write_of_done (write_done_iff.2 ⟨by rwa [map_writtenName hnamed], hfits⟩)

theorem Stored.entries_octets (h : draft.Stored) :
    (FileState.octets (Zip.encode draft)).entries = .ok (draft.map DraftEntry.entry) := by
  rw [FileState.entries, archiveEntries, h.read]

/-- What was stored is drafted again. -/
theorem Stored.draft_octets (h : draft.Stored) (hnamed : ∀ e ∈ draft, e.WellNamed) :
    (FileState.octets (Zip.encode draft)).draft = .ok draft := by
  rw [FileState.draft, h.entries_octets]
  exact ofEntries_entries hnamed

/-- An archive that is written and read as it is. -/
structure Kept (draft : ArchiveDraft) : Prop where
  named : ∀ e ∈ draft, e.WellNamed
  distinct : (draft.map DraftEntry.name).Nodup
  stored : draft.Stored

theorem Kept.write_eq (h : draft.Kept) :
    FileState.write draft = ⟨.octets (Zip.encode draft), .ok ()⟩ :=
  ArchiveDraft.write_eq h.stored.fits h.named h.distinct

/-- A file whose archive is kept is changed as the archive is. -/
theorem Kept.changed (h : draft.Kept) {change : ArchiveDraft → ArchiveDraft}
    (hchanged : (change draft).Kept) :
    (FileState.octets (Zip.encode draft)).changed change =
      ⟨.octets (Zip.encode (change draft)), .ok ()⟩ := by
  rw [FileState.changed, h.stored.draft_octets h.named]
  exact hchanged.write_eq

end ArchiveDraft

/-- The last use of each name, in the order of these uses. Names are alike whatever their case. -/
def Signer.lastUses : List Signer → List Signer
  | [] => []
  | s :: later =>
    if later.any fun t => Text.alike s.keyName t.keyName then lastUses later
    else s :: lastUses later

namespace FileState

/-- Sign with several signers in turn, up to one that fails. -/
def signInTurn (file : FileState) : List Signer → FileChange
  | [] => ⟨file, .ok ()⟩
  | s :: rest =>
    match (file.sign s).result with
    | .ok _ => (file.sign s).file.signInTurn rest
    | .error e => ⟨(file.sign s).file, .error e⟩

end FileState

namespace SignedDraft

variable {a : SignedDraft}

/-! ### Names in the whole archive -/

theorem wellNamed_draft (h : a.WellFormed) : ∀ e ∈ a.draft, e.WellNamed := by
  have hfront : ∀ e ∈ a.front, e.WellNamed := by
    refine forall_mem_front ?_ fun g _ => ⟨?_, ?_⟩
    · exact DraftEntry.wellNamed_file (by decide) _
    · exact DraftEntry.wellNamed_file (Signer.isDirectory_signatureFileName _) _
    · exact DraftEntry.wellNamed_file (Signer.isDirectory_blockName _) _
  intro e he
  rcases List.mem_append.1 he with he | he
  · exact hfront e he
  · exact (h.rest e he).toWellNamed

theorem stem?_of_mem_entries {g : Signature} :
    ∀ e ∈ g.entries, EntryName.stem? e.name = some (Text.folded g.signer.stem.toList) := by
  rw [Signature.entries, List.forall_mem_cons, List.forall_mem_singleton]
  exact ⟨Signer.stem?_signatureFileName _, Signer.stem?_blockName _⟩

/-- The files of signers whose names are not alike have different names. -/
theorem nodup_signatures {signatures : List Signature}
    (hnamed : ∀ g ∈ signatures, g.signer.NamesFiles)
    (hapart : signatures.Pairwise fun g h => g.alike h = false) :
    ((signatures.flatMap Signature.entries).map DraftEntry.name).Nodup := by
  induction signatures with
  | nil => exact List.nodup_nil
  | cons g signatures ih =>
    obtain ⟨hg, hothers⟩ := List.forall_mem_cons.1 hnamed
    rw [List.pairwise_cons] at hapart
    have hown : (g.entries.map DraftEntry.name).Nodup := by
      have hne : g.signer.signatureFileName ≠ g.signer.blockName := by
        intro hname
        have hblock := Signer.isBlock_blockName hg
        rw [← hname, Signer.isBlock_signatureFileName] at hblock
        cases hblock
      simpa [Signature.entries, Signature.signatureFile, Signature.block, DraftEntry.file] using hne
    rw [List.flatMap_cons, List.map_append, List.nodup_append]
    refine ⟨hown, ih hothers hapart.2, ?_⟩
    intro name hname other hother hsame
    obtain ⟨e, he, rfl⟩ := List.mem_map.1 hname
    obtain ⟨x, hx, rfl⟩ := List.mem_map.1 hother
    obtain ⟨later, hlater, hx⟩ := List.mem_flatMap.1 hx
    have hstem := stem?_of_mem_entries e he
    rw [hsame, stem?_of_mem_entries x hx, Option.some.injEq, Signer.folded_stem_eq_iff] at hstem
    have hapart := hapart.1 later hlater
    rw [Signature.alike, Text.alike_comm, hstem] at hapart
    cases hapart

/-- No two entries have one name. -/
theorem nodup_draft (h : a.WellFormed) : (a.draft.map DraftEntry.name).Nodup := by
  have hmanifest : EntryName.manifest ∉
      (a.signatures.flatMap Signature.entries).map DraftEntry.name := by
    intro hmem
    obtain ⟨e, he, hname⟩ := List.mem_map.1 hmem
    obtain ⟨g, hg, he⟩ := List.mem_flatMap.1 he
    have hsignature := belongsToSignature_entries (h.named g hg) e he
    rw [hname, belongsToSignature_manifest] at hsignature
    cases hsignature
  have hfront : (a.front.map DraftEntry.name).Nodup :=
    List.nodup_cons.2 ⟨hmanifest, nodup_signatures h.named h.apart⟩
  rw [draft, List.map_append, List.nodup_append]
  refine ⟨hfront, h.distinct, ?_⟩
  rintro name hname other hother rfl
  obtain ⟨e, he, rfl⟩ := List.mem_map.1 hother
  exact not_mem_names_front h (h.rest e he) hname

/-! ### Changes of files -/

/-- The file that holds an archive. -/
def file (a : SignedDraft) : FileState :=
  .octets (Zip.encode a.draft)

theorem write_draft (h : a.WellFormed) (hstored : a.draft.Stored) :
    FileState.write a.draft = ⟨a.file, .ok ()⟩ :=
  ArchiveDraft.write_eq hstored.fits (wellNamed_draft h) (nodup_draft h)

/-- What was stored is drafted again. -/
theorem draft_file (h : a.WellFormed) (hstored : a.draft.Stored) : a.file.draft = .ok a.draft :=
  hstored.draft_octets (wellNamed_draft h)

theorem create_file {entries : ArchiveDraft} (h : (created entries).WellFormed)
    (hstored : (created entries).draft.Stored) :
    FileState.create entries = ⟨(created entries).file, .ok ()⟩ := by
  rw [FileState.create, ← draft_created, write_draft h hstored]

theorem sign_file (h : a.WellFormed) (hstored : a.draft.Stored) {s : Signer} (hs : s.NamesFiles)
    (hsigned : (a.signedBy s).draft.Stored) : a.file.sign s = ⟨(a.signedBy s).file, .ok ()⟩ := by
  rw [FileState.sign, FileState.changed, draft_file h hstored]
  simp only [draft_sign h, write_draft (h.signedBy hs) hsigned]

theorem update_file (h : a.WellFormed) (hstored : a.draft.Stored) {updates : List DraftEntry}
    (hupdates : ∀ e ∈ updates, e.Ordinary) (hupdated : (a.updated updates).draft.Stored) :
    a.file.update updates = ⟨(a.updated updates).file, .ok ()⟩ := by
  rw [FileState.update, FileState.changed, draft_file h hstored]
  simp only [draft_update h hupdates, write_draft (h.updated hupdates) hupdated]

/-! ### Signing in turn -/

/-- The archive after several signers have signed it. -/
def signedInTurn (a : SignedDraft) (signers : List Signer) : SignedDraft :=
  signers.foldl signedBy a

theorem wellFormed_signedInTurn (h : a.WellFormed) {signers : List Signer}
    (hsigners : ∀ s ∈ signers, s.NamesFiles) : (a.signedInTurn signers).WellFormed := by
  induction signers generalizing a with
  | nil => exact h
  | cons s signers ih =>
    obtain ⟨hs, hothers⟩ := List.forall_mem_cons.1 hsigners
    exact ih (h.signedBy hs) hothers

theorem foldl_sign (h : a.WellFormed) {signers : List Signer}
    (hsigners : ∀ s ∈ signers, s.NamesFiles) :
    signers.foldl ArchiveDraft.sign a.draft = (a.signedInTurn signers).draft := by
  induction signers generalizing a with
  | nil => rfl
  | cons s signers ih =>
    obtain ⟨hs, hothers⟩ := List.forall_mem_cons.1 hsigners
    rw [List.foldl_cons, draft_sign h, ih (h.signedBy hs) hothers]
    rfl

/-- Every signing succeeds. -/
theorem signInTurn_file (h : a.WellFormed) {signers : List Signer}
    (hsigners : ∀ s ∈ signers, s.NamesFiles)
    (hstored : ∀ draft ∈ signers.scanl ArchiveDraft.sign a.draft, draft.Stored) :
    a.file.signInTurn signers = ⟨(a.signedInTurn signers).file, .ok ()⟩ := by
  induction signers generalizing a with
  | nil => rfl
  | cons s signers ih =>
    obtain ⟨hs, hothers⟩ := List.forall_mem_cons.1 hsigners
    rw [List.scanl_cons, List.forall_mem_cons, draft_sign h] at hstored
    have hsigned : (a.signedBy s).draft.Stored := hstored.2 _ (List.mem_of_head? List.head?_scanl)
    rw [FileState.signInTurn, sign_file h hstored.1 hs hsigned]
    exact ih (h.signedBy hs) hothers hstored.2

theorem lastUses_concat (signers : List Signer) (s : Signer) :
    Signer.lastUses (signers ++ [s]) =
      ((Signer.lastUses signers).filter fun t => !Text.alike t.keyName s.keyName) ++ [s] := by
  induction signers with
  | nil => rfl
  | cons t signers ih =>
    rw [List.cons_append, Signer.lastUses, Signer.lastUses, ih, List.any_append, List.any_cons,
      List.any_nil, Bool.or_false]
    cases hlater : signers.any fun u => Text.alike t.keyName u.keyName with
    | true => simp
    | false =>
      cases halike : Text.alike t.keyName s.keyName with
      | true => simp [halike]
      | false => simp [halike]

/-- After signing in turn there is one signature over all files for each last use of a name. -/
theorem signatures_signedInTurn (entries : ArchiveDraft) (signers : List Signer) :
    ((created entries).signedInTurn signers).signatures =
        (Signer.lastUses signers).map (fun s => ⟨s, entries.files⟩) ∧
      ((created entries).signedInTurn signers).rest = entries ∧
      (signers ≠ [] → ((created entries).signedInTurn signers).stated = entries.files) := by
  induction signers using List.reverseRecOn with
  | nil => exact ⟨rfl, rfl, fun h => absurd rfl h⟩
  | append_singleton signers s ih =>
    obtain ⟨hsignatures, hrest, -⟩ := ih
    have hstep : (created entries).signedInTurn (signers ++ [s]) =
        ((created entries).signedInTurn signers).signedBy s := by
      rw [signedInTurn, List.foldl_append]
      rfl
    rw [hstep, signedBy, hsignatures, hrest, lastUses_concat, List.map_append, List.filter_map]
    exact ⟨rfl, rfl, fun _ => rfl⟩

end SignedDraft

end JarSigners
