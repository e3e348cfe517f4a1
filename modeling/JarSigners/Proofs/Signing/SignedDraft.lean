import JarSigners.Proofs.Archive.Drafts
import JarSigners.Proofs.Signing.FileNames
import JarSigners.Proofs.Signing.SignatureFile

/-!
# Archives that were signed

An archive under signing is a manifest, some signatures and everything else, in this order
(`SignedDraft`). Signing states the digests of all files, removes the earlier signature of the same
signer and puts the new one behind the others; an update touches nothing but the rest.
-/

set_option autoImplicit false

namespace JarSigners

/-! ### Entries that are no part of a signature -/

/-- A well-named entry that is neither the manifest nor part of a signature; a file has a name of
one line. -/
structure DraftEntry.Ordinary (e : DraftEntry) : Prop extends e.WellNamed where
  oneLine : e.content.isSome = true → Text.OneLine e.name
  notManifest : EntryName.isManifest e.name = false
  unsigned : EntryName.belongsToSignature e.name = false

instance (e : DraftEntry) : Decidable e.Ordinary :=
  decidable_of_iff (e.WellNamed ∧ (e.content.isSome = true → Text.OneLine e.name) ∧
      EntryName.isManifest e.name = false ∧ EntryName.belongsToSignature e.name = false)
    ⟨fun h => ⟨h.1, h.2.1, h.2.2.1, h.2.2.2⟩,
      fun h => ⟨h.toWellNamed, h.oneLine, h.notManifest, h.unsigned⟩⟩

/-- Outside the metadata directory every well-named entry is ordinary, and so are directories. -/
theorem DraftEntry.WellNamed.ordinary {e : DraftEntry} (h : e.WellNamed)
    (hline : e.content.isSome = true → Text.OneLine e.name)
    (hfile : e.content.isSome = true → EntryName.isManifest e.name = false ∧
      EntryName.belongsToSignature e.name = false) : e.Ordinary := by
  cases hcontent : e.content with
  | some content =>
    obtain ⟨hmanifest, hsignature⟩ := hfile (by rw [hcontent]; rfl)
    exact ⟨h, hline, hmanifest, hsignature⟩
  | none =>
    have hslash := h.directory hcontent
    exact ⟨h, hline, EntryName.isManifest_of_isDirectory (EntryName.isDirectory_of_slash hslash),
      EntryName.belongsToSignature_of_slash hslash⟩

/-- A manifest after the digests of some files were stated in it, one after the other. -/
def ManifestDraft.refreshed (d : ManifestDraft) (files : List (String × Bytes)) : ManifestDraft :=
  files.foldl (fun m f => m.set f.1 digestKey (stated f.2)) d

namespace ArchiveDraft

/-- The files of an archive with their contents. -/
def files (draft : ArchiveDraft) : List (String × Bytes) :=
  draft.filterMap fun e => e.content.map fun content => (e.name, content)

theorem files_append (front rest : ArchiveDraft) :
    files (front ++ rest) = files front ++ files rest :=
  List.filterMap_append

theorem files_cons {e : DraftEntry} (h : e.content.isSome = true) (rest : ArchiveDraft) :
    files (e :: rest) = (e.name, e.writtenContent) :: files rest := by
  obtain ⟨name, content⟩ := e
  cases content with
  | none => exact absurd h Bool.false_ne_true
  | some content => rfl

theorem files_cons_of_some {e : DraftEntry} {content : Bytes} (h : e.content = some content)
    (rest : ArchiveDraft) : files (e :: rest) = (e.name, content) :: files rest :=
  List.filterMap_cons_some (by rw [h]; rfl)

theorem files_cons_of_none {e : DraftEntry} (h : e.content = none) (rest : ArchiveDraft) :
    files (e :: rest) = files rest :=
  List.filterMap_cons_none (by rw [h]; rfl)

theorem mem_files_iff {draft : ArchiveDraft} {name : String} {content : Bytes} :
    (name, content) ∈ draft.files ↔ DraftEntry.file name content ∈ draft := by
  rw [files, List.mem_filterMap]
  constructor
  · rintro ⟨⟨found, octets⟩, hmem, hpair⟩
    obtain ⟨bytes, rfl, heq⟩ := Option.map_eq_some_iff.1 hpair
    cases heq
    exact hmem
  · intro hmem
    exact ⟨_, hmem, rfl⟩

theorem names_files (draft : ArchiveDraft) :
    draft.files.map Prod.fst =
      (draft.filter fun e => e.content.isSome).map DraftEntry.name := by
  induction draft with
  | nil => rfl
  | cons e rest ih =>
    rw [files] at ih ⊢
    cases hcontent : e.content with
    | none => simp [hcontent, ih]
    | some content => simp [hcontent, ih]

theorem nodup_names_files {draft : ArchiveDraft} (h : (draft.map DraftEntry.name).Nodup) :
    (draft.files.map Prod.fst).Nodup := by
  rw [names_files]
  exact h.sublist (List.filter_sublist.map _)

theorem oneLine_files {draft : ArchiveDraft} (h : ∀ e ∈ draft, e.Ordinary) :
    ∀ f ∈ draft.files, Text.OneLine f.1 := by
  rintro ⟨name, content⟩ hf
  exact (h _ (mem_files_iff.1 hf)).oneLine rfl

/-! ### What signing digests -/

variable {draft : ArchiveDraft}

theorem unsignedPart_append (front rest : ArchiveDraft) :
    unsignedPart (front ++ rest) = unsignedPart front ++ unsignedPart rest :=
  List.filter_append _ _

theorem unsignedPart_cons (e : DraftEntry) (rest : ArchiveDraft) :
    unsignedPart (e :: rest) =
      if EntryName.isManifest e.name || EntryName.belongsToSignature e.name then unsignedPart rest
      else e :: unsignedPart rest := by
  rw [unsignedPart, List.filter_cons, ← Bool.not_or]
  cases EntryName.isManifest e.name || EntryName.belongsToSignature e.name <;> rfl

/-- The manifest and signatures are not digested. -/
theorem unsignedPart_of_signatures (h : ∀ e ∈ draft, EntryName.isManifest e.name = true ∨
    EntryName.belongsToSignature e.name = true) : draft.unsignedPart = [] := by
  rw [unsignedPart, List.filter_eq_nil_iff]
  intro e he
  rcases h e he with hname | hname <;> simp [hname]

/-- Everything else is. -/
theorem unsignedPart_of_ordinary (h : ∀ e ∈ draft, e.Ordinary) : draft.unsignedPart = draft := by
  rw [unsignedPart, List.filter_eq_self]
  intro e he
  simp [(h e he).notManifest, (h e he).unsigned]

/-- Stating digests entry by entry is stating those of the files that belong to no signature. -/
theorem foldl_stateDigest (draft : ArchiveDraft) (m : ManifestDraft) :
    draft.foldl stateDigest m = m.refreshed (files draft.unsignedPart) := by
  induction draft generalizing m with
  | nil => rfl
  | cons e rest ih =>
    rw [List.foldl_cons, ih, unsignedPart_cons]
    by_cases hname : (EntryName.isManifest e.name || EntryName.belongsToSignature e.name) = true
    · have hsame : stateDigest m e = m := by
        rw [stateDigest]
        split
        · rfl
        · rw [if_pos hname]
      rw [hsame, if_pos hname]
    · rw [if_neg hname, stateDigest]
      cases hcontent : e.content with
      | none => rw [files_cons_of_none hcontent]
      | some content =>
        rw [files_cons_of_some hcontent]
        simp only [if_neg hname]
        rfl

end ArchiveDraft

/-! ### Signatures -/

/-- A signature: who made it, and over which files with their contents. -/
structure Signature where
  signer : Signer
  files : List (String × Bytes)

namespace Signature

/-- What the signature file says. -/
def content (g : Signature) : Bytes :=
  (ManifestDraft.stating g.files).signatureFile.encode

def signatureFile (g : Signature) : DraftEntry :=
  .file g.signer.signatureFileName g.content

def block (g : Signature) : DraftEntry :=
  .file g.signer.blockName (g.signer.block false g.content)

def entries (g : Signature) : List DraftEntry :=
  [g.signatureFile, g.block]

/-- Whether two signatures are by signers whose names are alike. -/
def alike (g h : Signature) : Bool :=
  Text.alike g.signer.keyName h.signer.keyName

end Signature

/-- An archive with the files of which its manifest states digests, its signatures in order, and
everything else. -/
structure SignedDraft where
  stated : List (String × Bytes)
  signatures : List Signature
  rest : ArchiveDraft

namespace SignedDraft

/-- The manifest and the signatures. -/
def front (a : SignedDraft) : ArchiveDraft :=
  .file EntryName.manifest (ManifestDraft.stating a.stated).encode ::
    a.signatures.flatMap Signature.entries

def draft (a : SignedDraft) : ArchiveDraft :=
  a.front ++ a.rest

/-- An archive that was just created. -/
def created (entries : ArchiveDraft) : SignedDraft :=
  ⟨[], [], entries⟩

theorem draft_created (entries : ArchiveDraft) :
    (created entries).draft = ArchiveDraft.create entries := by
  rw [draft, front, created, ManifestDraft.stating_nil, List.flatMap_nil, List.cons_append,
    List.nil_append, ArchiveDraft.create]

/-- The archive after signing. -/
def signedBy (a : SignedDraft) (s : Signer) : SignedDraft where
  stated := a.rest.files
  signatures := (a.signatures.filter fun g => !Text.alike g.signer.keyName s.keyName) ++
    [⟨s, a.rest.files⟩]
  rest := a.rest

/-- The archive after an update. -/
def updated (a : SignedDraft) (updates : List DraftEntry) : SignedDraft :=
  { a with rest := a.rest.update updates }

/-- What holds of an archive that was created, and then signed and updated. -/
structure WellFormed (a : SignedDraft) : Prop where
  rest : ∀ e ∈ a.rest, e.Ordinary
  distinct : (a.rest.map DraftEntry.name).Nodup
  stated : a.stated.map Prod.fst <+: a.rest.files.map Prod.fst
  files : ∀ g ∈ a.signatures, g.files.map Prod.fst <+: a.stated.map Prod.fst
  named : ∀ g ∈ a.signatures, g.signer.NamesFiles
  apart : a.signatures.Pairwise fun g h => g.alike h = false

namespace WellFormed

variable {a : SignedDraft}

theorem oneLine_stated (h : a.WellFormed) : ∀ f ∈ a.stated, Text.OneLine f.1 := by
  intro f hf
  have hmem := h.stated.subset (List.mem_map_of_mem (f := Prod.fst) hf)
  obtain ⟨found, hfound, hname⟩ := List.mem_map.1 hmem
  exact hname ▸ ArchiveDraft.oneLine_files h.rest found hfound

theorem nodup_stated (h : a.WellFormed) : (a.stated.map Prod.fst).Nodup :=
  (ArchiveDraft.nodup_names_files h.distinct).sublist h.stated.sublist

theorem oneLine_over (h : a.WellFormed) {g : Signature} (hg : g ∈ a.signatures) :
    ∀ f ∈ g.files, Text.OneLine f.1 := by
  intro f hf
  have hmem := (h.files g hg).subset (List.mem_map_of_mem (f := Prod.fst) hf)
  obtain ⟨found, hfound, hname⟩ := List.mem_map.1 hmem
  exact hname ▸ h.oneLine_stated found hfound

end WellFormed

theorem wellFormed_created {entries : ArchiveDraft} (hrest : ∀ e ∈ entries, e.Ordinary)
    (hdistinct : (entries.map DraftEntry.name).Nodup) : (created entries).WellFormed where
  rest := hrest
  distinct := hdistinct
  stated := List.nil_prefix
  files := fun _ h => absurd h List.not_mem_nil
  named := fun _ h => absurd h List.not_mem_nil
  apart := List.Pairwise.nil

/-! ### Names in the front part -/

variable {a : SignedDraft}

theorem forall_mem_front {p : DraftEntry → Prop}
    (hmanifest : p (.file EntryName.manifest (ManifestDraft.stating a.stated).encode))
    (hsignatures : ∀ g ∈ a.signatures, p g.signatureFile ∧ p g.block) : ∀ e ∈ a.front, p e := by
  intro e he
  rcases List.mem_cons.1 he with rfl | he
  · exact hmanifest
  · obtain ⟨g, hg, hentry⟩ := List.mem_flatMap.1 he
    rcases List.mem_cons.1 hentry with rfl | hblock
    · exact (hsignatures g hg).1
    · rw [List.mem_singleton.1 hblock]
      exact (hsignatures g hg).2

theorem belongsToSignature_manifest : EntryName.belongsToSignature EntryName.manifest = false := by
  decide

theorem isManifest_manifest : EntryName.isManifest EntryName.manifest = true := by
  decide

theorem belongsToSignature_entries {g : Signature} (h : g.signer.NamesFiles) :
    ∀ e ∈ g.entries, EntryName.belongsToSignature e.name = true := by
  rw [Signature.entries, List.forall_mem_cons, List.forall_mem_singleton]
  exact ⟨Signer.belongsToSignature_signatureFileName h, Signer.belongsToSignature_blockName h⟩

/-- No ordinary entry has a name of the front part. -/
theorem not_mem_names_front (h : a.WellFormed) {e : DraftEntry} (he : e.Ordinary) :
    e.name ∉ a.front.map DraftEntry.name := by
  have hfront : ∀ x ∈ a.front, x.name ≠ e.name := by
    refine forall_mem_front (p := fun x => x.name ≠ e.name) ?_ fun g hg => ⟨?_, ?_⟩
    · rintro (hname : EntryName.manifest = e.name)
      have hmanifest := he.notManifest
      rw [← hname, isManifest_manifest] at hmanifest
      cases hmanifest
    all_goals
      intro hname
      have hunsigned := he.unsigned
      rw [← hname] at hunsigned
    · exact absurd (Signer.belongsToSignature_signatureFileName (h.named g hg))
        (Bool.eq_false_iff.1 hunsigned)
    · exact absurd (Signer.belongsToSignature_blockName (h.named g hg))
        (Bool.eq_false_iff.1 hunsigned)
  intro hmem
  obtain ⟨x, hx, hname⟩ := List.mem_map.1 hmem
  exact hfront x hx hname

/-! ### Updating -/

theorem front_updated (a : SignedDraft) (updates : List DraftEntry) :
    (a.updated updates).front = a.front := by
  rw [front, front, updated]

theorem draft_update (h : a.WellFormed) {updates : List DraftEntry}
    (hupdates : ∀ e ∈ updates, e.Ordinary) :
    a.draft.update updates = (a.updated updates).draft := by
  rw [draft, draft, front_updated]
  exact ArchiveDraft.update_append (fun e he => not_mem_names_front h (hupdates e he)) a.rest

/-- Renewed entries are of the kinds they were of. -/
theorem names_files_renewed {rest : ArchiveDraft} {updates : List DraftEntry}
    (hrest : ∀ e ∈ rest, e.Ordinary) (hupdates : ∀ e ∈ updates, e.Ordinary) :
    (ArchiveDraft.files (rest.map (ArchiveDraft.renewed updates))).map Prod.fst =
      rest.files.map Prod.fst := by
  have hkind : ∀ e ∈ rest, (ArchiveDraft.renewed updates e).content.isSome = e.content.isSome := by
    intro e he
    rcases ArchiveDraft.mem_renewed updates e with hsame | hnew
    · rw [hsame]
    · exact (hupdates _ hnew).isSome_eq (hrest e he).toWellNamed
        (ArchiveDraft.name_renewed updates e)
  rw [ArchiveDraft.names_files, ArchiveDraft.names_files, List.filter_map, List.map_map]
  have hfilter : rest.filter ((fun e => e.content.isSome) ∘ ArchiveDraft.renewed updates) =
      rest.filter fun e => e.content.isSome :=
    List.filter_congr fun e he => hkind e he
  rw [hfilter]
  exact List.map_congr_left fun e _ => ArchiveDraft.name_renewed updates e

theorem WellFormed.updated (h : a.WellFormed) {updates : List DraftEntry}
    (hupdates : ∀ e ∈ updates, e.Ordinary) : (a.updated updates).WellFormed where
  rest := fun e he => (ArchiveDraft.mem_update he).elim (h.rest e) (hupdates e)
  distinct := ArchiveDraft.nodup_update h.distinct updates
  stated := by
    have hnames := names_files_renewed h.rest hupdates
    refine h.stated.trans ?_
    rw [← hnames, SignedDraft.updated, ArchiveDraft.update_eq h.distinct, ArchiveDraft.files_append,
      List.map_append]
    exact List.prefix_append _ _
  files := h.files
  named := h.named
  apart := h.apart

end SignedDraft

/-! ### Stating digests -/

namespace ManifestDraft

theorem setAttribute_statement (content octets : Bytes) :
    setAttribute digestKey (stated content) (statement octets) = statement content := by
  rw [statement, setAttribute, if_pos (Text.alike_refl digestKey), statement]

/-- A digest that was stated is stated anew in its place. -/
theorem set_stating {before after : List (String × Bytes)} {name : String}
    (hname : name ∉ before.map Prod.fst) (old content : Bytes) :
    (stating (before ++ (name, old) :: after)).set name digestKey (stated content) =
      stating (before ++ (name, content) :: after) := by
  induction before with
  | nil =>
    simp only [List.nil_append, stating, List.map_cons, set, setInSections, if_true,
      setAttribute_statement]
  | cons f before ih =>
    rw [List.map_cons, List.mem_cons, not_or] at hname
    have hrest := congrArg ManifestDraft.sections (ih hname.2)
    simp only [set, stating] at hrest
    simp only [List.cons_append, stating, List.map_cons, set, setInSections,
      if_neg fun hsame => hname.1 (Eq.symm hsame), hrest]

/-- A digest that was not stated is stated behind all others. -/
theorem set_stating_new {before : List (String × Bytes)} {name : String}
    (hname : name ∉ before.map Prod.fst) (content : Bytes) :
    (stating before).set name digestKey (stated content) =
      stating (before ++ [(name, content)]) := by
  induction before with
  | nil => rfl
  | cons f before ih =>
    rw [List.map_cons, List.mem_cons, not_or] at hname
    have hrest := congrArg ManifestDraft.sections (ih hname.2)
    simp only [set, stating] at hrest
    simp only [List.cons_append, stating, List.map_cons, set, setInSections,
      if_neg fun hsame => hname.1 (Eq.symm hsame), hrest]

/-- Stating the digests of files one after the other, where those stated before come first among
them, states the digests of these files and no others. -/
theorem foldl_set_stating {files : List (String × Bytes)} (done old : List (String × Bytes))
    (hfront : old.map Prod.fst <+: files.map Prod.fst)
    (hdistinct : ((done ++ files).map Prod.fst).Nodup) :
    (stating (done ++ old)).refreshed files = stating (done ++ files) := by
  rw [refreshed]
  induction files generalizing done old with
  | nil =>
    rw [List.map_nil, List.prefix_nil, List.map_eq_nil_iff] at hfront
    rw [hfront, List.foldl_nil]
  | cons f files ih =>
    have hname : f.1 ∉ done.map Prod.fst := by
      rw [List.map_append, List.map_cons, List.nodup_append] at hdistinct
      intro hmem
      exact hdistinct.2.2 _ hmem _ List.mem_cons_self rfl
    have hassoc : done ++ f :: files = (done ++ [f]) ++ files := by
      rw [List.append_assoc, List.singleton_append]
    rw [hassoc] at hdistinct
    cases old with
    | nil =>
      have hnext := ih (done ++ [f]) [] List.nil_prefix hdistinct
      rw [List.append_nil] at hnext ⊢
      rw [List.foldl_cons, set_stating_new hname, hnext, hassoc]
    | cons g old =>
      rw [List.map_cons, List.map_cons, List.cons_prefix_cons] at hfront
      obtain ⟨hsame, hfront⟩ := hfront
      have hnext := ih (done ++ [f]) old hfront hdistinct
      have hset : (stating (done ++ (f.1, g.2) :: old)).set f.1 digestKey (stated f.2) =
          stating (done ++ (f.1, f.2) :: old) := set_stating hname g.2 f.2
      rw [List.append_assoc, List.singleton_append] at hnext
      rw [List.foldl_cons, show g = (f.1, g.2) from Prod.ext hsame rfl, hset, hnext, hassoc]

end ManifestDraft

namespace SignedDraft

variable {a : SignedDraft}

theorem manifest_draft (h : a.WellFormed) : a.draft.manifest = ManifestDraft.stating a.stated := by
  have hfind : a.draft.find? (fun e => EntryName.isManifest e.name) =
      some (.file EntryName.manifest (ManifestDraft.stating a.stated).encode) := by
    rw [draft, front, List.cons_append]
    exact List.find?_cons_of_pos isManifest_manifest
  rw [ArchiveDraft.manifest, hfind]
  exact ManifestDraft.read_encode (ManifestDraft.writable_stating h.oneLine_stated)

theorem foldl_stateDigest_of_signatures {front : ArchiveDraft}
    (h : ∀ e ∈ front, EntryName.isManifest e.name = true ∨
      EntryName.belongsToSignature e.name = true) (m : ManifestDraft) :
    front.foldl ArchiveDraft.stateDigest m = m := by
  rw [ArchiveDraft.foldl_stateDigest, ArchiveDraft.unsignedPart_of_signatures h]
  rfl

theorem foldl_stateDigest_front (h : a.WellFormed) (m : ManifestDraft) :
    a.front.foldl ArchiveDraft.stateDigest m = m := by
  refine foldl_stateDigest_of_signatures ?_ m
  refine forall_mem_front (Or.inl isManifest_manifest) fun g hg => ⟨Or.inr ?_, Or.inr ?_⟩
  · exact Signer.belongsToSignature_signatureFileName (h.named g hg)
  · exact Signer.belongsToSignature_blockName (h.named g hg)

theorem foldl_stateDigest_rest {rest : ArchiveDraft} (hrest : ∀ e ∈ rest, e.Ordinary)
    (m : ManifestDraft) : rest.foldl ArchiveDraft.stateDigest m = m.refreshed rest.files := by
  rw [ArchiveDraft.foldl_stateDigest, ArchiveDraft.unsignedPart_of_ordinary hrest]

/-- When it is signed, the manifest of an archive states the digests of all its files. -/
theorem currentManifest_draft (h : a.WellFormed) :
    a.draft.currentManifest = ManifestDraft.stating a.rest.files := by
  have hfold := ManifestDraft.foldl_set_stating [] a.stated h.stated
    (ArchiveDraft.nodup_names_files h.distinct)
  rw [ArchiveDraft.currentManifest, manifest_draft h, draft, List.foldl_append,
    foldl_stateDigest_front h, foldl_stateDigest_rest h.rest]
  exact hfold

/-! ### Signing -/

theorem filter_front {p : DraftEntry → Bool} {keep : Signature → Bool}
    (hmanifest : p (.file EntryName.manifest (ManifestDraft.stating a.stated).encode) = false)
    (hsignatures : ∀ g ∈ a.signatures, p g.signatureFile = keep g ∧ p g.block = keep g) :
    a.front.filter p = (a.signatures.filter keep).flatMap Signature.entries := by
  rw [front, List.filter_cons_of_neg (by simp [hmanifest])]
  generalize a.signatures = signatures at hsignatures
  induction signatures with
  | nil => rfl
  | cons g signatures ih =>
    obtain ⟨⟨hfile, hblock⟩, hrest⟩ := List.forall_mem_cons.1 hsignatures
    rw [List.flatMap_cons, List.filter_append, ih hrest, List.filter_cons]
    cases hkeep : keep g with
    | false => simp [Signature.entries, hfile, hblock, hkeep]
    | true => simp [Signature.entries, hfile, hblock, hkeep]

theorem otherSignatures_draft (h : a.WellFormed) (s : Signer) :
    a.draft.otherSignatures s =
      (a.signatures.filter fun g => !Text.alike g.signer.keyName s.keyName).flatMap
        Signature.entries := by
  have hrest : a.rest.filter (fun e => EntryName.belongsToSignature e.name && !s.owns e.name) =
      [] := by
    rw [List.filter_eq_nil_iff]
    intro e he
    simp [(h.rest e he).unsigned]
  rw [ArchiveDraft.otherSignatures, draft, List.filter_append, hrest, List.append_nil]
  refine filter_front (by simp [DraftEntry.file, belongsToSignature_manifest]) fun g hg => ⟨?_, ?_⟩
  · have hsignature := Signer.belongsToSignature_signatureFileName (h.named g hg)
    simp only [Signature.signatureFile, DraftEntry.file, hsignature, Signer.owns_signatureFileName,
      Bool.true_and]
  · have hsignature := Signer.belongsToSignature_blockName (h.named g hg)
    simp only [Signature.block, DraftEntry.file, hsignature, Signer.owns_blockName, Bool.true_and]

theorem unsignedPart_draft (h : a.WellFormed) : a.draft.unsignedPart = a.rest := by
  have hfront : a.front.unsignedPart = [] := by
    refine ArchiveDraft.unsignedPart_of_signatures ?_
    refine forall_mem_front (Or.inl isManifest_manifest) fun g hg => ⟨Or.inr ?_, Or.inr ?_⟩
    · exact Signer.belongsToSignature_signatureFileName (h.named g hg)
    · exact Signer.belongsToSignature_blockName (h.named g hg)
  rw [draft, ArchiveDraft.unsignedPart_append, hfront,
    ArchiveDraft.unsignedPart_of_ordinary h.rest, List.nil_append]

/-- Signing an archive takes away the earlier signature of the signer and adds one over all
files behind the others. -/
theorem draft_sign (h : a.WellFormed) (s : Signer) : a.draft.sign s = (a.signedBy s).draft := by
  rw [ArchiveDraft.sign, currentManifest_draft h, otherSignatures_draft h, unsignedPart_draft h,
    draft, front, signedBy, List.flatMap_append, List.flatMap_singleton]
  simp only [Signature.entries, Signature.signatureFile, Signature.block, Signature.content,
    List.cons_append, List.nil_append, List.append_assoc]

theorem WellFormed.signedBy (h : a.WellFormed) {s : Signer} (hs : s.NamesFiles) :
    (a.signedBy s).WellFormed where
  rest := h.rest
  distinct := h.distinct
  stated := List.prefix_refl _
  files := by
    intro g hg
    rcases List.mem_append.1 hg with hg | hg
    · exact (h.files g (List.mem_of_mem_filter hg)).trans h.stated
    · rw [List.mem_singleton.1 hg]
      exact List.prefix_refl _
  named := by
    intro g hg
    rcases List.mem_append.1 hg with hg | hg
    · exact h.named g (List.mem_of_mem_filter hg)
    · rw [List.mem_singleton.1 hg]
      exact hs
  apart := by
    refine List.pairwise_append.2 ⟨h.apart.filter _, List.pairwise_singleton _ _, ?_⟩
    intro g hg new hnew
    have halike := (List.mem_filter.1 hg).2
    rw [List.mem_singleton.1 hnew]
    simpa [Signature.alike] using halike

end SignedDraft

end JarSigners
