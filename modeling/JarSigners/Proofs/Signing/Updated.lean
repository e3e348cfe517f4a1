import JarSigners.Proofs.Signing.Collected

/-!
# What an update after signing leads to

An update leaves the manifest and the signatures as they are, so they still cover the files that
were there when the archive was signed. A file with another digest than before can then no longer
be read, a file that was added is signed by nobody, and everything else changes nothing. Which of
these is found first is decided by the list of updates alone.
-/

set_option autoImplicit false

namespace JarSigners

/-! ### What updates do to the files of an archive -/

/-- A file outside the metadata directory with a name of one line, or a directory. -/
structure DraftEntry.Plain (e : DraftEntry) : Prop extends e.WellNamed where
  oneLine : e.content.isSome = true → Text.OneLine e.name
  outside : e.content.isSome = true → EntryName.isMetadata e.name = false

instance (e : DraftEntry) : Decidable e.Plain :=
  decidable_of_iff (e.WellNamed ∧ (e.content.isSome = true → Text.OneLine e.name) ∧
      (e.content.isSome = true → EntryName.isMetadata e.name = false))
    ⟨fun h => ⟨h.1, h.2.1, h.2.2⟩, fun h => ⟨h.toWellNamed, h.oneLine, h.outside⟩⟩

theorem DraftEntry.Plain.ordinary {e : DraftEntry} (h : e.Plain) : e.Ordinary :=
  h.toWellNamed.ordinary h.oneLine fun hfile =>
    ⟨EntryName.isManifest_eq_false (h.outside hfile),
      EntryName.belongsToSignature_eq_false (h.outside hfile)⟩

/-- Outside the metadata directory every file is content. -/
theorem DraftEntry.Plain.isContent_of_file {e : DraftEntry} (h : e.Plain)
    (hfile : e.content.isSome = true) : e.isContent = true := by
  rw [isContent, hfile, h.outside hfile]
  rfl

theorem DraftEntry.isSome_of_isContent {e : DraftEntry} (h : e.isContent = true) :
    e.content.isSome = true := by
  rw [isContent, Bool.and_eq_true] at h
  exact h.1

/-- Whether updates leave a file with contents of another digest. -/
def DraftEntry.changedBy (updates : List DraftEntry) (old : DraftEntry) : Bool :=
  old.content.isSome && Digest.sha256.digest old.writtenContent !=
    Digest.sha256.digest (ArchiveDraft.renewed updates old).writtenContent

namespace ArchiveDraft

/-- The first file to be covered by signatures. -/
def firstContent? (draft : ArchiveDraft) : Option String :=
  (draft.find? DraftEntry.isContent).map DraftEntry.name

/-- The first file whose contents have another digest after some updates. -/
def firstChanged? (draft : ArchiveDraft) (updates : List DraftEntry) : Option String :=
  (draft.find? (DraftEntry.changedBy updates)).map DraftEntry.name

/-- The first file to be covered by signatures that updates add. -/
def firstAdded? (draft : ArchiveDraft) (updates : List DraftEntry) : Option String :=
  firstContent? (draft.added updates)

theorem digest_renewed {draft : ArchiveDraft} {updates : List DraftEntry}
    (hunchanged : draft.firstChanged? updates = none) {e : DraftEntry} (he : e ∈ draft)
    (hfile : e.content.isSome = true) :
    Digest.sha256.digest e.writtenContent =
      Digest.sha256.digest (renewed updates e).writtenContent := by
  rw [firstChanged?, Option.map_eq_none_iff, List.find?_eq_none] at hunchanged
  simpa [DraftEntry.changedBy, hfile] using hunchanged e he

/-- The files that updates add, in the order in which they stand in the archive. -/
def addedContent (draft : ArchiveDraft) (updates : List DraftEntry) : ArchiveDraft :=
  (update [] (draft.added updates)).filter DraftEntry.isContent

variable {draft : ArchiveDraft} {updates : List DraftEntry}

theorem isContent_renewed (hupdates : ∀ e ∈ updates, e.WellNamed) {old : DraftEntry}
    (hold : old.WellNamed) : (renewed updates old).isContent = old.isContent := by
  have hrenewed : (renewed updates old).WellNamed := by
    rcases mem_renewed updates old with hsame | hnew
    · rw [hsame]
      exact hold
    · exact hupdates _ hnew
  rw [hrenewed.isContent_eq, hold.isContent_eq, name_renewed]

/-- After an update the content is that of before, renewed, and what was added. -/
theorem content_update (hdistinct : (draft.map DraftEntry.name).Nodup)
    (hdraft : ∀ e ∈ draft, e.WellNamed) (hupdates : ∀ e ∈ updates, e.WellNamed) :
    (draft.update updates).filter DraftEntry.isContent =
      (draft.filter DraftEntry.isContent).map (renewed updates) ++ draft.addedContent updates := by
  have hfilter : draft.filter (DraftEntry.isContent ∘ renewed updates) =
      draft.filter DraftEntry.isContent :=
    List.filter_congr fun e he => isContent_renewed hupdates (hdraft e he)
  rw [update_eq hdistinct, List.filter_append, List.filter_map, hfilter, addedContent]

/-- The first of the files that updates add is the first that is given. -/
theorem head?_addedContent (hupdates : ∀ e ∈ updates, e.WellNamed) :
    (draft.addedContent updates).head?.map DraftEntry.name = draft.firstAdded? updates := by
  have hadded : ∀ e ∈ draft.added updates, e.WellNamed := fun e he =>
    hupdates e (List.mem_of_mem_filter he)
  -- whether an entry is content can be told from its name
  have hbyName : ∀ l : List DraftEntry, (∀ e ∈ l, e.WellNamed) →
      (l.find? DraftEntry.isContent).map DraftEntry.name =
        (l.map DraftEntry.name).find? fun name =>
          !EntryName.isDirectory name && !EntryName.isMetadata name := by
    intro l
    induction l with
    | nil => exact fun _ => rfl
    | cons e l ih =>
      intro hl
      obtain ⟨he, hl⟩ := List.forall_mem_cons.1 hl
      rw [List.find?_cons, List.map_cons, List.find?_cons, he.isContent_eq]
      cases hcontent : !EntryName.isDirectory e.name && !EntryName.isMetadata e.name with
      | true => rfl
      | false => exact ih hl
  have hnew : ∀ e ∈ update [] (draft.added updates), e.WellNamed := fun e he =>
    (mem_update he).elim (fun hnone => absurd hnone List.not_mem_nil) (hadded e)
  rw [addedContent, List.head?_filter, hbyName _ hnew, find?_names_update, firstAdded?,
    firstContent?, hbyName _ hadded]

/-- A file is there with its contents. -/
theorem mem_files_of_isContent {e : DraftEntry} (he : e ∈ draft) (hcontent : e.isContent = true) :
    (e.name, e.writtenContent) ∈ draft.files := by
  obtain ⟨name, content⟩ := e
  cases content with
  | none => exact absurd hcontent Bool.false_ne_true
  | some content => exact mem_files_iff.2 he

end ArchiveDraft

namespace SignedDraft

variable {a : SignedDraft} {updates : List DraftEntry} {limits : SizeLimits}

/-! ### Archives that were updated -/

section Renewed

variable {draft : ArchiveDraft} {granted others : List Chain} (h : a.WellFormed)
  (hstored : a.draft.Stored)
  (hcontent : a.content = (draft.filter DraftEntry.isContent).map (ArchiveDraft.renewed updates) ++
    draft.addedContent updates)
  (hprints : (granted.map Chain.fingerprint).Nodup)
  (hrenewed : ∀ e ∈ (draft.filter DraftEntry.isContent).map (ArchiveDraft.renewed updates),
    Granted granted (answerTo a.entries limits e.entry))
  (hupdates : ∀ e ∈ updates, e.WellNamed) {first : String}
  (hfirst : draft.firstContent? = some first)

include h hstored hcontent hprints hrenewed hupdates hfirst

/-- If files that were there are granted to some and those that were added to others, the first
of those is held against the first of these. -/
theorem collected_of_added (hothers : (others.map Chain.fingerprint).Nodup)
    (hnew : ∀ x ∈ draft.addedContent updates,
      Granted others (answerTo a.entries limits x.entry))
    (hdiffer : ¬ SamePrints granted others) {name : String}
    (hadded : draft.firstAdded? updates = some name) :
    (Listing.ofFile limits a.file).result =
      .error (.disagreement ⟨first, granted.map Chain.displayName, name,
        others.map Chain.displayName⟩) := by
  rw [ArchiveDraft.firstContent?, ← List.head?_filter, Option.map_eq_some_iff] at hfirst
  obtain ⟨old, hold, rfl⟩ := hfirst
  obtain ⟨later, hlater⟩ := List.head?_eq_some_iff.1 hold
  rw [← ArchiveDraft.head?_addedContent hupdates, Option.map_eq_some_iff] at hadded
  obtain ⟨x, hx, rfl⟩ := hadded
  obtain ⟨more, hmore⟩ := List.head?_eq_some_iff.1 hx
  rw [hlater, List.map_cons, hmore, List.cons_append] at hcontent
  rw [hlater, List.map_cons, List.forall_mem_cons] at hrenewed
  rw [hmore] at hnew
  have hname := ArchiveDraft.name_renewed updates old
  rw [← hname]
  exact collected_of_others h hstored hprints hothers hcontent hrenewed.1 hrenewed.2
    (hnew x List.mem_cons_self) hdiffer

/-- If no file was added, those to whom the files are granted are collected. -/
theorem collected_of_none_added (hadded : draft.firstAdded? updates = none) :
    (Listing.ofFile limits a.file).result = .ok granted := by
  rw [← ArchiveDraft.head?_addedContent hupdates, Option.map_eq_none_iff,
    List.head?_eq_none_iff] at hadded
  rw [hadded, List.append_nil] at hcontent
  rw [← hcontent] at hrenewed
  have hsome : a.content ≠ [] := by
    intro hnone
    rw [hnone, Eq.comm, List.map_eq_nil_iff] at hcontent
    rw [ArchiveDraft.firstContent?, ← List.head?_filter, hcontent] at hfirst
    cases hfirst
  exact collected_of_granted h hstored hprints hsome hrenewed

end Renewed

/-! ### Which names and digests signatures are over -/

/-- Files with distinct names have one content for each name. -/
theorem exists_content {files : List (String × Bytes)} (hdistinct : (files.map Prod.fst).Nodup) :
    ∃ content : String → Bytes, ∀ f ∈ files, content f.1 = f.2 := by
  refine ⟨fun name => ((files.find? fun f => f.1 = name).map Prod.snd).getD [], fun f hf => ?_⟩
  obtain ⟨found, hfound⟩ : ∃ found, files.find? (fun g => g.1 = f.1) = some found := by
    rw [← Option.isSome_iff_exists, List.find?_isSome]
    exact ⟨f, hf, decide_eq_true rfl⟩
  have hname : found.1 = f.1 := by simpa using List.find?_some hfound
  have hsame := List.inj_on_of_nodup_map hdistinct (List.mem_of_find?_eq_some hfound) hf hname
  simp only [hfound, Option.map_some, Option.getD_some, hsame]

/-- Signatures cover what they are over as long as the manifest states the same digests. -/
theorem covers_of_same (h : a.WellFormed)
    (hsame : ∀ g ∈ a.signatures, ∀ f ∈ g.files, ∃ new, (f.1, new) ∈ a.stated ∧
      Digest.sha256.digest f.2 = Digest.sha256.digest new) : a.Covers := by
  intro g hg
  obtain ⟨content, hcontent⟩ := exists_content h.nodup_stated
  have hfiles : ∀ f ∈ g.files, (f.1, content f.1) ∈ a.stated ∧
      Digest.sha256.digest f.2 = Digest.sha256.digest (content f.1) := by
    intro f hf
    obtain ⟨new, hnew, hdigest⟩ := hsame g hg f hf
    have hlookup : content f.1 = new := hcontent _ hnew
    rw [hlookup]
    exact ⟨hnew, hdigest⟩
  exact ManifestDraft.coveredNames_stating h.nodup_stated (fun f hf => (hfiles f hf).1)
    fun f hf => (hfiles f hf).2

/-- An archive with signatures over all of its files, as its manifest states them. -/
structure Complete (a : SignedDraft) : Prop where
  stated : a.stated = a.rest.files
  files : ∀ g ∈ a.signatures, g.files = a.rest.files

theorem complete_signedInTurn (entries : ArchiveDraft) {signers : List Signer}
    (hsigners : signers ≠ []) : ((created entries).signedInTurn signers).Complete := by
  obtain ⟨hsignatures, hrest, hstated⟩ := signatures_signedInTurn entries signers
  constructor
  · rw [hstated hsigners, hrest]
  · rw [hsignatures, hrest]
    exact List.forall_mem_map.2 fun _ _ => rfl

section Complete

variable (h : a.WellFormed) (hcomplete : a.Complete)

include h hcomplete

/-- An update takes nothing away from what the signatures cover. -/
theorem Complete.covers_updated (hupdates : ∀ e ∈ updates, e.Ordinary) :
    (a.updated updates).Covers := by
  refine covers_of_same (h.updated hupdates) fun g hg f hf => ⟨f.2, ?_, rfl⟩
  have hmem : (f.1, f.2) ∈ g.files := hf
  rw [hcomplete.files g hg, ← hcomplete.stated] at hmem
  exact hmem

omit h in
/-- A file that was there is signed by everybody. -/
theorem Complete.signersOf_renewed {old : DraftEntry} (hold : old ∈ a.content) :
    (a.updated updates).signersOf (ArchiveDraft.renewed updates old).name = a.signers := by
  have hmem : (old.name, old.writtenContent) ∈ a.rest.files :=
    ArchiveDraft.mem_files_of_isContent (List.mem_of_mem_filter hold) (List.mem_filter.1 hold).2
  refine signersOf_eq_signers fun g hg => ?_
  rw [ArchiveDraft.name_renewed, Signature.names, hcomplete.files g hg]
  exact List.mem_map_of_mem (f := Prod.fst) hmem

omit h in
/-- A file that was added is signed by nobody. -/
theorem Complete.signersOf_added {x : DraftEntry} (hx : x ∈ a.rest.addedContent updates) :
    (a.updated updates).signersOf x.name = [] := by
  have hnew : x.name ∉ a.rest.map DraftEntry.name := by
    rcases ArchiveDraft.mem_update (List.mem_of_mem_filter hx) with hnone | hadded
    · exact absurd hnone List.not_mem_nil
    · simpa using (List.mem_filter.1 hadded).2
  refine signersOf_eq_nil fun g hg hname => hnew ?_
  rw [Signature.names, hcomplete.files g hg, ArchiveDraft.names_files] at hname
  exact (List.filter_sublist.map _).subset hname

end Complete

/-! ### What is found after an update -/

theorem content_updated (h : a.WellFormed) (hupdates : ∀ e ∈ updates, e.Ordinary) :
    (a.updated updates).content =
      a.content.map (ArchiveDraft.renewed updates) ++ a.rest.addedContent updates :=
  ArchiveDraft.content_update h.distinct (fun e he => (h.rest e he).toWellNamed)
    fun e he => (hupdates e he).toWellNamed

section Outcome

variable (h : a.WellFormed) (hcomplete : a.Complete) (hupdates : ∀ e ∈ updates, e.Ordinary)
  (hlimits : limits.Hold (a.updated updates).draft)
  (honest : ∀ g ∈ a.signatures, g.signer.Honest)
  (hprints : (a.signers.map Chain.fingerprint).Nodup)

include h hcomplete hupdates hlimits honest hprints

/-- A file that was there and was not changed is granted to everybody. -/
theorem granted_renewed {old : DraftEntry} (hold : old ∈ a.content)
    (hunchanged : Digest.sha256.digest old.writtenContent =
      Digest.sha256.digest (ArchiveDraft.renewed updates old).writtenContent) :
    Granted a.signers (answerTo (a.updated updates).entries limits
      (ArchiveDraft.renewed updates old).entry) := by
  have hmem : ArchiveDraft.renewed updates old ∈ (a.updated updates).content := by
    rw [content_updated h hupdates]
    exact List.mem_append_left _ (List.mem_map_of_mem hold)
  have hfile : (old.name, old.writtenContent) ∈ a.rest.files :=
    ArchiveDraft.mem_files_of_isContent (List.mem_of_mem_filter hold) (List.mem_filter.1 hold).2
  have hall : (a.updated updates).signersOf (ArchiveDraft.renewed updates old).name = a.signers :=
    hcomplete.signersOf_renewed hold
  rw [← hall]
  refine granted_signersOf (h.updated hupdates) hlimits honest (hcomplete.covers_updated h hupdates)
    hprints hmem fun _ => ⟨old.writtenContent, ?_, hunchanged⟩
  rw [ArchiveDraft.name_renewed]
  exact hcomplete.stated ▸ hfile

theorem granted_added {x : DraftEntry} (hx : x ∈ a.rest.addedContent updates) :
    Granted [] (answerTo (a.updated updates).entries limits x.entry) := by
  have hmem : x ∈ (a.updated updates).content := by
    rw [content_updated h hupdates]
    exact List.mem_append_right _ hx
  have hnobody := hcomplete.signersOf_added hx
  rw [← hnobody]
  exact granted_signersOf (h.updated hupdates) hlimits honest
    (hcomplete.covers_updated h hupdates) hprints hmem fun hsomebody => absurd hnobody hsomebody

theorem granted_of_unchanged (hunchanged : a.rest.firstChanged? updates = none) :
    ∀ e ∈ a.content.map (ArchiveDraft.renewed updates),
      Granted a.signers (answerTo (a.updated updates).entries limits e.entry) := by
  refine List.forall_mem_map.2 fun e he => ?_
  obtain ⟨hmem, hcontent⟩ := List.mem_filter.1 he
  exact granted_renewed h hcomplete hupdates hlimits honest hprints he
    (ArchiveDraft.digest_renewed hunchanged hmem (DraftEntry.isSome_of_isContent hcontent))

/-- A file whose digest was changed cannot be read, and the first one is reported. -/
theorem collected_changed (hstored : (a.updated updates).draft.Stored)
    (hsigned : a.signatures ≠ []) (hplain : ∀ e ∈ a.rest, e.Plain) {name : String}
    (hchanged : a.rest.firstChanged? updates = some name) :
    (Listing.ofFile limits (a.updated updates).file).result =
      .error (.archive (.untrusted (.entryDiffers name .sha256))) := by
  obtain ⟨x, hfind, rfl⟩ := Option.map_eq_some_iff.1 hchanged
  obtain ⟨hx, before, after, hrest, hbefore⟩ := List.find?_eq_some_iff_append.1 hfind
  rw [DraftEntry.changedBy, Bool.and_eq_true, bne_iff_ne] at hx
  have hmem : x ∈ a.rest := hrest ▸ List.mem_append_right _ List.mem_cons_self
  have hcontent : x.isContent = true := (hplain x hmem).isContent_of_file hx.1
  have hold : x ∈ a.content := List.mem_filter.2 ⟨hmem, hcontent⟩
  have hsplit : (a.updated updates).content =
      (before.filter DraftEntry.isContent).map (ArchiveDraft.renewed updates) ++
        ArchiveDraft.renewed updates x ::
          ((after.filter DraftEntry.isContent).map (ArchiveDraft.renewed updates) ++
            a.rest.addedContent updates) := by
    rw [content_updated h hupdates, content, hrest, List.filter_append,
      List.filter_cons_of_pos hcontent, List.map_append, List.map_cons, List.append_assoc,
      List.cons_append]
  have hgranted : ∀ e ∈ (before.filter DraftEntry.isContent).map (ArchiveDraft.renewed updates),
      Granted a.signers (answerTo (a.updated updates).entries limits e.entry) := by
    refine List.forall_mem_map.2 fun e he => ?_
    obtain ⟨hmem, hcontent⟩ := List.mem_filter.1 he
    have hold : e ∈ a.content :=
      List.mem_filter.2 ⟨hrest ▸ List.mem_append_left _ hmem, hcontent⟩
    exact granted_renewed h hcomplete hupdates hlimits honest hprints hold
      (by simpa [DraftEntry.changedBy, DraftEntry.isSome_of_isContent hcontent] using hbefore e hmem)
  have hsomebody : (a.updated updates).signersOf (ArchiveDraft.renewed updates x).name ≠ [] := by
    rw [hcomplete.signersOf_renewed hold, signers, Ne, List.map_eq_nil_iff]
    exact hsigned
  have hstated : ((ArchiveDraft.renewed updates x).name, x.writtenContent) ∈ a.stated := by
    rw [ArchiveDraft.name_renewed, hcomplete.stated]
    exact ArchiveDraft.mem_files_of_isContent hmem hcontent
  have hfails := answerTo_altered (h.updated hupdates) hlimits honest
    (hcomplete.covers_updated h hupdates) hprints
    (hsplit ▸ List.mem_append_right _ List.mem_cons_self) hsomebody hstated hx.2
  rw [ArchiveDraft.name_renewed] at hfails
  exact collected_of_failure (h.updated hupdates) hstored hsplit hgranted hfails

/-- Otherwise, if a file was added, the first such file has no signers while the others do. -/
theorem collected_added (hstored : (a.updated updates).draft.Stored) (hsigned : a.signatures ≠ [])
    {first name : String} (hfirst : a.rest.firstContent? = some first)
    (hunchanged : a.rest.firstChanged? updates = none)
    (hadded : a.rest.firstAdded? updates = some name) :
    (Listing.ofFile limits (a.updated updates).file).result =
      .error (.disagreement ⟨first, a.signers.map Chain.displayName, name, []⟩) := by
  have hdiffer : ¬ SamePrints a.signers [] := by
    intro hsame
    have hnone := hsame.symm.eq_nil
    rw [signers, List.map_eq_nil_iff] at hnone
    exact hsigned hnone
  have hnobody : (([] : List Chain).map Chain.fingerprint).Nodup := List.nodup_nil
  exact collected_of_added (h.updated hupdates) hstored (content_updated h hupdates) hprints
    (granted_of_unchanged h hcomplete hupdates hlimits honest hprints hunchanged)
    (fun e he => (hupdates e he).toWellNamed) hfirst hnobody
    (fun x hx => granted_added h hcomplete hupdates hlimits honest hprints hx) hdiffer hadded

/-- Otherwise the signers are those of before. -/
theorem collected_unchanged (hstored : (a.updated updates).draft.Stored) {first : String}
    (hfirst : a.rest.firstContent? = some first)
    (hunchanged : a.rest.firstChanged? updates = none)
    (hadded : a.rest.firstAdded? updates = none) :
    (Listing.ofFile limits (a.updated updates).file).result = .ok a.signers :=
  collected_of_none_added (h.updated hupdates) hstored (content_updated h hupdates) hprints
    (granted_of_unchanged h hcomplete hupdates hlimits honest hprints hunchanged)
    (fun e he => (hupdates e he).toWellNamed) hfirst hadded

/-- What is found after an update is decided by the updates. -/
theorem found_updated (hstored : (a.updated updates).draft.Stored) (hsigned : a.signatures ≠ [])
    (hplain : ∀ e ∈ a.rest, e.Plain) {first : String}
    (hfirst : a.rest.firstContent? = some first) :
    let found := (Listing.ofFile limits (a.updated updates).file).result
    (∀ name, a.rest.firstChanged? updates = some name →
      found = .error (.archive (.untrusted (.entryDiffers name .sha256)))) ∧
    (a.rest.firstChanged? updates = none → ∀ name, a.rest.firstAdded? updates = some name →
      found = .error (.disagreement ⟨first, a.signers.map Chain.displayName, name, []⟩)) ∧
    (a.rest.firstChanged? updates = none → a.rest.firstAdded? updates = none →
      found = .ok a.signers) := by
  refine ⟨fun name hchanged => ?_, fun hunchanged name hadded => ?_, fun hunchanged hadded => ?_⟩
  · exact collected_changed h hcomplete hupdates hlimits honest hprints hstored hsigned hplain
      hchanged
  · exact collected_added h hcomplete hupdates hlimits honest hprints hstored hsigned hfirst
      hunchanged hadded
  · exact collected_unchanged h hcomplete hupdates hlimits honest hprints hstored hfirst
      hunchanged hadded

end Outcome

end SignedDraft

end JarSigners
