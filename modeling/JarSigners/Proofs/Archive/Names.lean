import JarSigners.Proofs.Steps
import JarSigners.Signing.Archive
import Mathlib.Data.List.Induction
import Mathlib.Data.List.Nodup

/-!
# Names in archives that are read

Of entries with one name the reader keeps one, so the entries of an archive that is read have
distinct names (`Zip.nodup_names_entries?`). They are drafted under these names, and the names of
drafted directories end like those of directories, so each is written under the name it was read
under.
-/

set_option autoImplicit false

namespace JarSigners

/-! ### Entries of an archive file -/

namespace Zip

/-- An entry in the place of one with the same name changes no names. -/
theorem names_setIfInBounds {kept : Array Entry} {e : Entry} {i : Nat}
    (h : (kept.findIdx? fun k => k.name = e.name) = some i) :
    (kept.setIfInBounds i e).toList.map Entry.name = kept.toList.map Entry.name := by
  obtain ⟨hi, hname, -⟩ := Array.findIdx?_eq_some_iff_getElem.1 h
  have hplace : i < (kept.toList.map Entry.name).length := by simpa using hi
  have hget : (kept.toList.map Entry.name)[i] = e.name := by simpa using hname
  rw [Array.toList_setIfInBounds, List.map_set, ← hget, List.set_getElem_self]

theorem nodup_names_mergeNames (entries : List Entry) :
    ((mergeNames entries).map Entry.name).Nodup := by
  rw [mergeNames]
  induction entries using List.reverseRecOn with
  | nil => exact List.nodup_nil
  | append_singleton entries e ih =>
    rw [List.foldl_append, List.foldl_cons, List.foldl_nil]
    generalize entries.foldl _ #[] = kept at ih ⊢
    cases hfound : kept.findIdx? fun k => k.name = e.name with
    | some i => rwa [names_setIfInBounds hfound]
    | none =>
      have hnew : e.name ∉ kept.toList.map Entry.name := by
        rw [Array.findIdx?_eq_none_iff] at hfound
        intro hmem
        obtain ⟨k, hk, hname⟩ := List.mem_map.1 hmem
        exact of_decide_eq_false (hfound k (Array.mem_toList_iff.1 hk)) hname
      rw [Array.toList_push, List.map_append, List.map_singleton, ← List.concat_eq_append]
      exact ih.concat hnew

theorem nodup_names_entriesAt? {file : Bytes} {directories : List Nat} {position : Nat}
    {entries : List Entry} (h : entriesAt? file directories position = some entries) :
    (entries.map Entry.name).Nodup := by
  rw [entriesAt?] at h
  obtain ⟨record, -, h⟩ := Option.bind_eq_some_iff.1 h
  obtain ⟨place, -, h⟩ := Option.bind_eq_some_iff.1 h
  obtain ⟨all, -, rfl⟩ := Option.map_eq_some_iff.1 h
  exact nodup_names_mergeNames all

/-- The entries of an archive file have distinct names. -/
theorem nodup_names_entries? {file : Bytes} {entries : List Entry}
    (h : entries? file = some entries) : (entries.map Entry.name).Nodup := by
  obtain ⟨position, -, hentries⟩ := List.exists_of_findSome?_eq_some h
  exact nodup_names_entriesAt? hentries

end Zip

/-! ### Drafts of archive files -/

namespace DraftEntry

variable {entry : Entry} {e : DraftEntry}

theorem name_of_ofEntry (h : ofEntry entry = .ok e) : e.name = entry.name := by
  rw [ofEntry] at h
  split at h
  · cases h
  · split at h
    · cases h
      rfl
    · split at h
      · cases h
        rfl
      · cases h

/-- A drafted directory has the name of one. -/
theorem isDirectory_of_ofEntry (h : ofEntry entry = .ok e) (hcontent : e.content = none) :
    EntryName.isDirectory e.name = true := by
  rw [ofEntry] at h
  split at h
  · cases h
  · split at h
    next hdirectory =>
      cases h
      exact hdirectory
    next =>
      split at h
      · cases h
        cases hcontent
      · cases h

theorem writtenName_of_ofEntry (h : ofEntry entry = .ok e) : e.writtenName = e.name := by
  cases hcontent : e.content with
  | some content => simp [writtenName, hcontent]
  | none => simp [writtenName, hcontent, isDirectory_of_ofEntry h hcontent]

end DraftEntry

/-- Entries are drafted under their names. -/
theorem ArchiveDraft.names_of_ofEntries {entries : List Entry} {draft : ArchiveDraft}
    (h : ofEntries entries = .ok draft) : draft.map DraftEntry.name = entries.map Entry.name := by
  have hdrafted := Steps.forall₂_of_mapM_eq_ok h
  clear h
  induction hdrafted with
  | nil => rfl
  | cons hentry _ ih => rw [List.map_cons, List.map_cons, ih, DraftEntry.name_of_ofEntry hentry]

namespace FileState

variable {file : FileState} {draft : ArchiveDraft}

/-- What a draft of a file is the draft of. -/
theorem entries_of_draft (h : file.draft = .ok draft) :
    ∃ entries, (entries.map Entry.name).Nodup ∧ ArchiveDraft.ofEntries entries = .ok draft := by
  rw [FileState.draft] at h
  split at h
  next entries hentries =>
    refine ⟨entries, ?_, h⟩
    cases file with
    | missing => cases hentries
    | directory => cases hentries
    | octets content =>
      rw [FileState.entries, archiveEntries] at hentries
      split at hentries
      next found hfound =>
        cases hentries
        exact Zip.nodup_names_entries? hfound
      next => cases hentries
  next => cases h
  next => cases h

/-- The entries of a drafted archive have distinct names. -/
theorem nodup_names_draft (h : file.draft = .ok draft) : (draft.map DraftEntry.name).Nodup := by
  obtain ⟨entries, hdistinct, hdrafted⟩ := entries_of_draft h
  rwa [ArchiveDraft.names_of_ofEntries hdrafted]

/-- Entries are written under the names they were read under. -/
theorem writtenName_of_draft (h : file.draft = .ok draft) :
    ∀ e ∈ draft, e.writtenName = e.name := by
  obtain ⟨entries, -, hdrafted⟩ := entries_of_draft h
  intro e he
  obtain ⟨entry, -, hentry⟩ := Steps.exists_of_mem_of_mapM_eq_ok hdrafted he
  exact DraftEntry.writtenName_of_ofEntry hentry

end FileState

end JarSigners
