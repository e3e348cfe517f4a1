import JarSigners.Archive.Draft
import Mathlib.Data.List.Basic
import Mathlib.Data.List.Induction
import Mathlib.Data.List.Nodup

/-!
# Drafts and what updates make of them

A draft whose entries fit, are named after their kinds and have distinct names is written as it is.
An update renews the entries that are there in their places (`renewed`) and puts the others behind
them in the order in which they first come (`update_eq`).
-/

set_option autoImplicit false

namespace JarSigners

namespace DraftEntry

/-! ### Names after their kinds -/

/-- Directories end with a slash, and files end neither with that nor with a backslash. -/
structure WellNamed (e : DraftEntry) : Prop where
  file : e.content.isSome = true → EntryName.isDirectory e.name = false
  directory : e.content = none → e.name.toList.getLast? = some '/'

instance (e : DraftEntry) : Decidable e.WellNamed :=
  decidable_of_iff ((e.content.isSome = true → EntryName.isDirectory e.name = false) ∧
      (e.content = none → e.name.toList.getLast? = some '/'))
    ⟨fun h => ⟨h.1, h.2⟩, fun h => ⟨h.file, h.directory⟩⟩

theorem wellNamed_file {name : String} (h : EntryName.isDirectory name = false)
    (content : Bytes) : (file name content).WellNamed where
  file := fun _ => h
  directory := nofun

namespace WellNamed

variable {e other : DraftEntry}

theorem isDirectory_eq (h : e.WellNamed) : EntryName.isDirectory e.name = e.content.isNone := by
  cases hcontent : e.content with
  | some content => exact h.file (by rw [hcontent]; rfl)
  | none => simp [EntryName.isDirectory, h.directory hcontent]

theorem writtenName_eq (h : e.WellNamed) : e.writtenName = e.name := by
  cases hcontent : e.content with
  | some content => simp [writtenName, hcontent]
  | none =>
    have hdirectory := h.isDirectory_eq
    rw [hcontent, Option.isNone_none] at hdirectory
    simp [writtenName, hcontent, hdirectory]

/-- What is written is drafted again as it was. -/
theorem ofEntry_entry (h : e.WellNamed) : ofEntry e.entry = .ok e := by
  have hdirectory : (Entry.mk e.name (.octets e.writtenContent true)).isDirectory =
      e.content.isNone := h.isDirectory_eq
  rw [entry, h.writtenName_eq, ofEntry]
  simp only [hdirectory]
  obtain ⟨name, content⟩ := e
  cases content with
  | some content => rfl
  | none => rfl

/-- Entries of one name are of one kind. -/
theorem isSome_eq (h : e.WellNamed) (hother : other.WellNamed) (hname : e.name = other.name) :
    e.content.isSome = other.content.isSome := by
  have hsame : e.content.isNone = other.content.isNone := by
    rw [← h.isDirectory_eq, hname, hother.isDirectory_eq]
  cases he : e.content <;> cases ho : other.content <;> simp_all

end WellNamed

/-! ### What is refused -/

/-- An entry whose name and content the writer has room for. -/
structure Fits (e : DraftEntry) : Prop where
  name : (Text.utf8 e.writtenName).length ≤ maxName
  content : e.writtenContent.length ≤ maxContent

/-- An entry is written exactly if its name is new and it fits. -/
theorem refusal?_eq_none_iff {e : DraftEntry} {names : List String} :
    e.refusal? names = none ↔ e.writtenName ∉ names ∧ e.Fits := by
  have hfits : e.Fits ↔ ¬ maxName < (Text.utf8 e.writtenName).length ∧
      ¬ maxContent < e.writtenContent.length := by
    rw [Nat.not_lt, Nat.not_lt]
    exact ⟨fun h => ⟨h.name, h.content⟩, fun h => ⟨h.1, h.2⟩⟩
  rw [hfits, refusal?]
  split
  next hused =>
    have hused : e.writtenName ∈ names := by simpa using hused
    simp [hused]
  next hnew =>
    have hnew : e.writtenName ∉ names := by simpa using hnew
    split
    next hlong => simp [hlong]
    next hname =>
      split
      next hlarge => simp [hlarge]
      next hcontent => exact iff_of_true rfl ⟨hnew, hname, hcontent⟩

end DraftEntry

namespace ArchiveDraft

/-! ### Writing -/

/-- No entry is refused exactly if all fit and their names are new and distinct. -/
theorem refusal?_eq_none_iff {draft : ArchiveDraft} {names : List String} :
    draft.refusal? names = none ↔
      (draft.map DraftEntry.writtenName).Nodup ∧ ∀ e ∈ draft, e.writtenName ∉ names ∧ e.Fits := by
  induction draft generalizing names with
  | nil => simp [refusal?]
  | cons e rest ih =>
    have hsplit : refusal? names (e :: rest) = none ↔
        e.refusal? names = none ∧ refusal? (e.writtenName :: names) rest = none := by
      rw [refusal?]
      cases e.refusal? names <;> simp
    rw [hsplit, ih, DraftEntry.refusal?_eq_none_iff, List.map_cons, List.nodup_cons,
      List.forall_mem_cons]
    constructor
    · rintro ⟨hfirst, hdistinct, hrest⟩
      refine ⟨⟨fun hmem => ?_, hdistinct⟩, hfirst, fun x hx => ?_⟩
      · obtain ⟨x, hx, hname⟩ := List.mem_map.1 hmem
        exact (hrest x hx).1 (hname ▸ List.mem_cons_self)
      · exact ⟨fun hmem => (hrest x hx).1 (List.mem_cons_of_mem _ hmem), (hrest x hx).2⟩
    · rintro ⟨⟨hname, hdistinct⟩, hfirst, hrest⟩
      refine ⟨hfirst, hdistinct, fun x hx => ⟨fun hmem => ?_, (hrest x hx).2⟩⟩
      rcases List.mem_cons.1 hmem with hsame | hmem
      · exact hname (hsame ▸ List.mem_map_of_mem hx)
      · exact (hrest x hx).1 hmem

/-- Where none is refused, all are written. -/
theorem writable_of_refusal? {draft : ArchiveDraft} {names : List String}
    (h : draft.refusal? names = none) : draft.writable names = draft := by
  induction draft generalizing names with
  | nil => rfl
  | cons e rest ih =>
    rw [refusal?] at h
    split at h
    next => cases h
    next haccepted => simp only [writable, haccepted, ih h]

/-- Entries named after their kinds are written under their names. -/
theorem map_writtenName {draft : ArchiveDraft} (hnamed : ∀ e ∈ draft, e.WellNamed) :
    draft.map DraftEntry.writtenName = draft.map DraftEntry.name :=
  List.map_congr_left fun e he => (hnamed e he).writtenName_eq

theorem ofEntries_entries {draft : ArchiveDraft} (hnamed : ∀ e ∈ draft, e.WellNamed) :
    ofEntries (draft.map DraftEntry.entry) = .ok draft := by
  induction draft with
  | nil => rfl
  | cons e rest ih =>
    obtain ⟨he, hrest⟩ := List.forall_mem_cons.1 hnamed
    have htail := ih hrest
    rw [ofEntries] at htail ⊢
    rw [List.map_cons, List.mapM_cons, he.ofEntry_entry, htail]
    rfl

/-! ### Replacing -/

variable {draft : ArchiveDraft} {e : DraftEntry}

theorem replace_of_mem (hdistinct : (draft.map DraftEntry.name).Nodup)
    (h : e.name ∈ draft.map DraftEntry.name) :
    draft.replace e = draft.map fun old => if old.name = e.name then e else old := by
  induction draft with
  | nil => exact absurd h List.not_mem_nil
  | cons old rest ih =>
    rw [List.map_cons, List.nodup_cons] at hdistinct
    rw [replace, List.map_cons]
    split
    next hname =>
      have hothers : ∀ x ∈ rest, x.name ≠ e.name := by
        intro x hx hsame
        exact hdistinct.1 (hname.trans hsame.symm ▸ List.mem_map_of_mem hx)
      rw [List.map_congr_left fun x hx => if_neg (hothers x hx), List.map_id']
    next hname =>
      rw [List.map_cons, List.mem_cons] at h
      rw [ih hdistinct.2 (h.resolve_left fun hsame => hname hsame.symm)]

theorem replace_append_of_mem {front rest : ArchiveDraft}
    (h : e.name ∈ front.map DraftEntry.name) :
    replace e (front ++ rest) = replace e front ++ rest := by
  induction front with
  | nil => exact absurd h List.not_mem_nil
  | cons old front ih =>
    rw [List.cons_append, replace, replace]
    split
    · rfl
    next hname =>
      rw [List.map_cons, List.mem_cons] at h
      rw [ih (h.resolve_left fun hsame => hname hsame.symm), List.cons_append]

theorem replace_append_of_not_mem {front rest : ArchiveDraft}
    (h : e.name ∉ front.map DraftEntry.name) :
    replace e (front ++ rest) = front ++ replace e rest := by
  induction front with
  | nil => rfl
  | cons old front ih =>
    rw [List.map_cons, List.mem_cons, not_or] at h
    rw [List.cons_append, replace, if_neg fun hname => h.1 hname.symm, ih h.2, List.cons_append]

theorem names_replace (draft : ArchiveDraft) (e : DraftEntry) :
    (draft.replace e).map DraftEntry.name =
      if e.name ∈ draft.map DraftEntry.name then draft.map DraftEntry.name
      else draft.map DraftEntry.name ++ [e.name] := by
  induction draft with
  | nil => rfl
  | cons old rest ih =>
    rw [replace]
    by_cases hname : old.name = e.name
    · simp [hname]
    · have hother : ¬ e.name = old.name := fun hsame => hname hsame.symm
      simp only [if_neg hname, List.map_cons, ih, List.mem_cons, hother, false_or]
      split <;> rfl

theorem mem_replace {x : DraftEntry} (h : x ∈ draft.replace e) : x ∈ draft ∨ x = e := by
  induction draft with
  | nil => exact Or.inr (List.mem_singleton.1 h)
  | cons old rest ih =>
    rw [replace] at h
    split at h
    · rcases List.mem_cons.1 h with rfl | hx
      · exact Or.inr rfl
      · exact Or.inl (List.mem_cons_of_mem _ hx)
    · rcases List.mem_cons.1 h with rfl | hx
      · exact Or.inl List.mem_cons_self
      · exact (ih hx).imp_left (List.mem_cons_of_mem _)

/-! ### Updating -/

variable {updates : List DraftEntry}

theorem update_concat (draft : ArchiveDraft) (updates : List DraftEntry) (e : DraftEntry) :
    draft.update (updates ++ [e]) = (draft.update updates).replace e := by
  rw [update, List.foldl_append]
  rfl

/-- An entry as some updates leave it: the last of them with its name, or itself. -/
def renewed (updates : List DraftEntry) (old : DraftEntry) : DraftEntry :=
  updates.foldl (fun old e => if old.name = e.name then e else old) old

theorem renewed_concat (updates : List DraftEntry) (e old : DraftEntry) :
    renewed (updates ++ [e]) old =
      if (renewed updates old).name = e.name then e else renewed updates old := by
  rw [renewed, List.foldl_append]
  rfl

theorem name_renewed (updates : List DraftEntry) (old : DraftEntry) :
    (renewed updates old).name = old.name := by
  induction updates using List.reverseRecOn with
  | nil => rfl
  | append_singleton updates e ih =>
    rw [renewed_concat]
    split
    next h => rw [← h, ih]
    next => exact ih

theorem mem_renewed (updates : List DraftEntry) (old : DraftEntry) :
    renewed updates old = old ∨ renewed updates old ∈ updates := by
  induction updates using List.reverseRecOn with
  | nil => exact Or.inl rfl
  | append_singleton updates e ih =>
    rw [renewed_concat]
    split
    · exact Or.inr (List.mem_append_right _ List.mem_cons_self)
    · exact ih.imp_right (List.mem_append_left _)

theorem names_map_renewed (draft : ArchiveDraft) (updates : List DraftEntry) :
    (draft.map (renewed updates)).map DraftEntry.name = draft.map DraftEntry.name := by
  rw [List.map_map]
  exact List.map_congr_left fun old _ => name_renewed updates old

/-- The updates that find no entry of their name. -/
def added (draft : ArchiveDraft) (updates : List DraftEntry) : List DraftEntry :=
  updates.filter fun e => decide (e.name ∉ draft.map DraftEntry.name)

/-- An update renews what is there and puts the rest behind it. -/
theorem update_eq (hdistinct : (draft.map DraftEntry.name).Nodup) (updates : List DraftEntry) :
    draft.update updates = draft.map (renewed updates) ++ update [] (draft.added updates) := by
  induction updates using List.reverseRecOn with
  | nil =>
    have hsame : draft.map (renewed []) = draft := List.map_id' draft
    rw [hsame, added, List.filter_nil, update, update, List.foldl_nil, List.foldl_nil,
      List.append_nil]
  | append_singleton updates e ih =>
    have hnames := names_map_renewed draft updates
    rw [update_concat, ih]
    by_cases hmem : e.name ∈ draft.map DraftEntry.name
    · have hadded : draft.added (updates ++ [e]) = draft.added updates := by
        rw [added, List.filter_append, List.filter_cons_of_neg (by simpa using hmem),
          List.filter_nil, List.append_nil]
        rfl
      have hrenewed : draft.map (renewed (updates ++ [e])) =
          (draft.map (renewed updates)).map fun old => if old.name = e.name then e else old := by
        rw [List.map_map]
        exact List.map_congr_left fun old _ => renewed_concat updates e old
      rw [hadded, hrenewed, replace_append_of_mem (hnames ▸ hmem),
        replace_of_mem (hnames ▸ hdistinct) (hnames ▸ hmem)]
    · have hadded : draft.added (updates ++ [e]) = draft.added updates ++ [e] := by
        rw [added, List.filter_append, List.filter_cons_of_pos (by simpa using hmem),
          List.filter_nil]
        rfl
      have hrenewed : draft.map (renewed (updates ++ [e])) = draft.map (renewed updates) := by
        refine List.map_congr_left fun old hold => ?_
        rw [renewed_concat, if_neg]
        intro hname
        rw [name_renewed] at hname
        exact hmem (hname ▸ List.mem_map_of_mem hold)
      rw [hadded, hrenewed, update_concat, replace_append_of_not_mem (hnames ▸ hmem)]

/-- Updates leave alone what none of them names. -/
theorem update_append {front : ArchiveDraft}
    (h : ∀ e ∈ updates, e.name ∉ front.map DraftEntry.name) (rest : ArchiveDraft) :
    update (front ++ rest) updates = front ++ update rest updates := by
  induction updates using List.reverseRecOn with
  | nil => rfl
  | append_singleton updates e ih =>
    have he := h e (List.mem_append_right _ List.mem_cons_self)
    rw [update_concat, update_concat, ih fun x hx => h x (List.mem_append_left _ hx),
      replace_append_of_not_mem he]

theorem nodup_update (hdistinct : (draft.map DraftEntry.name).Nodup)
    (updates : List DraftEntry) : ((draft.update updates).map DraftEntry.name).Nodup := by
  induction updates using List.reverseRecOn with
  | nil => exact hdistinct
  | append_singleton updates e ih =>
    rw [update_concat, names_replace]
    split
    · exact ih
    next hmem => exact List.concat_eq_append ▸ ih.concat hmem

theorem mem_update {x : DraftEntry} (h : x ∈ draft.update updates) : x ∈ draft ∨ x ∈ updates := by
  induction updates using List.reverseRecOn with
  | nil => exact Or.inl h
  | append_singleton updates e ih =>
    rw [update_concat] at h
    rcases mem_replace h with hx | rfl
    · exact (ih hx).imp_right (List.mem_append_left _)
    · exact Or.inr (List.mem_append_right _ List.mem_cons_self)

theorem find?_replace {p : DraftEntry → Bool}
    (hp : ∀ x : DraftEntry, x.name = e.name → p x = false) :
    (draft.replace e).find? p = draft.find? p := by
  have he : p e = false := hp e rfl
  induction draft with
  | nil => simp [replace, he]
  | cons old rest ih =>
    rw [replace]
    by_cases hname : old.name = e.name
    · simp [hname, he, hp old hname]
    · rw [if_neg hname, List.find?_cons, List.find?_cons, ih]

/-- Updates do not change what is found under names that none of them has. -/
theorem find?_update {p : DraftEntry → Bool}
    (hp : ∀ e ∈ updates, ∀ x : DraftEntry, x.name = e.name → p x = false) :
    (draft.update updates).find? p = draft.find? p := by
  induction updates using List.reverseRecOn with
  | nil => rfl
  | append_singleton updates e ih =>
    rw [update_concat, find?_replace (hp e (List.mem_append_right _ List.mem_cons_self)),
      ih fun x hx => hp x (List.mem_append_left _ hx)]

/-- Of the names with some property the first to be added is the first that was given. -/
theorem find?_names_update (updates : List DraftEntry) (p : String → Bool) :
    ((update [] updates).map DraftEntry.name).find? p =
      (updates.map DraftEntry.name).find? p := by
  induction updates using List.reverseRecOn with
  | nil => rfl
  | append_singleton updates e ih =>
    rw [update_concat, names_replace, List.map_append, List.map_singleton, List.find?_append, ← ih]
    split
    next hmem =>
      cases hfound : ((update [] updates).map DraftEntry.name).find? p with
      | some name => rfl
      | none =>
        have hnone := List.find?_eq_none.1 hfound e.name hmem
        rw [List.find?_cons_of_neg hnone]
        rfl
    next => rw [List.find?_append]

end ArchiveDraft

end JarSigners
