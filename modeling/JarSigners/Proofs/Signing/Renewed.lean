import JarSigners.Proofs.Signing.InTurn

/-!
# Signing again after an update

When an updated archive is signed by somebody else, the manifest states the digests of the files as
they are now. The earlier signature then still covers the files that were not changed; if there is
one that was, the signature file is at odds with the manifest, and no file of the archive can be
read any more (`signing_after_update`).
-/

set_option autoImplicit false

namespace JarSigners

namespace SignedDraft

variable {a : SignedDraft} {limits : SizeLimits}

/-! ### Signature files that are refused -/

section Refused

variable (h : a.WellFormed) (hlimits : limits.Hold a.draft) {g : Signature}
  {later : List Signature} (hsignatures : a.signatures = g :: later) (honest : g.signer.Honest)
  {failure : TrustFailure} (hrefused : g.read.coveredNames a.manifest = .error failure)

include h hlimits hsignatures honest hrefused

/-- If the first signature file is at odds with the manifest, nothing can be loaded. -/
theorem verifySignatures_refused :
    verifySignatures a.entries limits.metadata = .error (.untrusted failure) := by
  have hpairs : pairedBlocks a.entries = g.paired :: later.map Signature.paired := by
    rw [pairedBlocks_entries h, hsignatures, List.map_cons]
  have hsome : pairedBlocks a.entries ≠ [] := by
    rw [hpairs]
    exact List.cons_ne_nil _ _
  have hsigned : g.paired.signed limits.metadata a.manifest = .error (.untrusted failure) := by
    have hg : g ∈ a.signatures := hsignatures ▸ List.mem_cons_self
    rw [signed_paired h hlimits hg honest, hrefused]
    rfl
  rw [verifySignatures_eq_bind (entryNamed?_manifest a) hsome, readManifest_entries h hlimits,
    Steps.ok_bind, hpairs, verifyBlocks_eq, List.mapM_cons, hsigned]
  rfl

theorem collected_refused (hstored : a.draft.Stored) (hsome : a.content ≠ []) :
    (Listing.ofFile limits a.file).result = .error (.archive (.untrusted failure)) := by
  obtain ⟨first, later, hcontent⟩ := List.exists_cons_of_ne_nil hsome
  have hfails : answerTo a.entries limits first.entry = .error (.untrusted failure) := by
    rw [answerTo, verifySignatures_refused h hlimits hsignatures honest hrefused]
    rfl
  have hnone : ∀ e ∈ ([] : ArchiveDraft),
      Granted [] (answerTo a.entries limits e.entry) := fun _ he => absurd he List.not_mem_nil
  exact collected_of_failure h hstored hcontent hnone hfails

end Refused

/-! ### Files before and after an update -/

variable {entries : ArchiveDraft} {updates : List DraftEntry}

/-- A file that was there is still there, with its renewed contents. -/
theorem mem_files_update (hentries : ∀ e ∈ entries, e.Ordinary)
    (hdistinct : (entries.map DraftEntry.name).Nodup) (hupdates : ∀ e ∈ updates, e.Ordinary)
    {e : DraftEntry} (he : e ∈ entries) (hfile : e.content.isSome = true) :
    (e.name, (ArchiveDraft.renewed updates e).writtenContent) ∈
      ArchiveDraft.files (entries.update updates) := by
  have hname := ArchiveDraft.name_renewed updates e
  have hsome : (ArchiveDraft.renewed updates e).content.isSome = true := by
    rcases ArchiveDraft.mem_renewed updates e with hsame | hnew
    · rw [hsame, hfile]
    · rw [(hupdates _ hnew).isSome_eq (hentries e he).toWellNamed hname, hfile]
  obtain ⟨content, hcontent⟩ := Option.isSome_iff_exists.1 hsome
  have hmem : ArchiveDraft.renewed updates e ∈ entries.update updates := by
    rw [ArchiveDraft.update_eq hdistinct]
    exact List.mem_append_left _ (List.mem_map_of_mem he)
  rw [DraftEntry.writtenContent, hcontent, Option.getD_some, ArchiveDraft.mem_files_iff,
    DraftEntry.file, ← hname, ← hcontent]
  exact hmem

/-- The files of entries are those that are no directories. -/
theorem mem_entries_of_mem_files {f : String × Bytes} (hf : f ∈ entries.files) :
    ∃ e ∈ entries, e.content.isSome = true ∧ f = (e.name, e.writtenContent) :=
  ⟨.file f.1 f.2, ArchiveDraft.mem_files_iff.1 hf, rfl, rfl⟩

/-! ### Two signatures with an update between them -/

/-- The archive that the first signs, that is updated, and that the second signs. -/
def signedAgain (entries : ArchiveDraft) (first : Signer) (updates : List DraftEntry)
    (second : Signer) : SignedDraft :=
  (((created entries).signedBy first).updated updates).signedBy second

section Again

variable {first second : Signer}

theorem signatures_signedAgain (hapart : Text.alike first.keyName second.keyName = false) :
    (signedAgain entries first updates second).signatures =
      [⟨first, entries.files⟩, ⟨second, ArchiveDraft.files (entries.update updates)⟩] := by
  have hkept : [Signature.mk first entries.files].filter
      (fun g => !Text.alike g.signer.keyName second.keyName) = [⟨first, entries.files⟩] := by
    rw [List.filter_cons_of_pos (by simp [hapart]), List.filter_nil]
  have hstep : (signedAgain entries first updates second).signatures =
      [Signature.mk first entries.files].filter
        (fun g => !Text.alike g.signer.keyName second.keyName) ++
          [⟨second, ArchiveDraft.files (entries.update updates)⟩] := rfl
  rw [hstep, hkept]
  rfl

theorem signers_signedAgain (hapart : Text.alike first.keyName second.keyName = false) :
    (signedAgain entries first updates second).signers = [first.chain, second.chain] := by
  rw [signers, signatures_signedAgain hapart]
  rfl

variable (hentries : ∀ e ∈ entries, e.Ordinary) (hdistinct : (entries.map DraftEntry.name).Nodup)
  (hupdates : ∀ e ∈ updates, e.Ordinary)

include hentries hdistinct hupdates

theorem wellFormed_signedAgain (hsigners : Signer.Independent [first, second]) :
    (signedAgain entries first updates second).WellFormed := by
  obtain ⟨hfirst, hsecond⟩ := List.forall_mem_cons.1 hsigners.named
  exact (((wellFormed_created hentries hdistinct).signedBy hfirst).updated hupdates).signedBy
    (List.forall_mem_singleton.1 hsecond)

theorem content_signedAgain : (signedAgain entries first updates second).content =
    (entries.filter DraftEntry.isContent).map (ArchiveDraft.renewed updates) ++
      entries.addedContent updates :=
  ArchiveDraft.content_update hdistinct (fun e he => (hentries e he).toWellNamed)
    fun e he => (hupdates e he).toWellNamed

omit hentries hdistinct hupdates in
/-- What the manifest of the archive states is what the files are. -/
theorem states_signedAgain {e : DraftEntry}
    (he : e ∈ (signedAgain entries first updates second).content) :
    (signedAgain entries first updates second).States e :=
  ⟨e.writtenContent, ArchiveDraft.mem_files_of_isContent (List.mem_of_mem_filter he)
    (List.mem_filter.1 he).2, rfl⟩

variable (hapart : Text.alike first.keyName second.keyName = false)

include hapart

/-- A file that was there from the beginning is signed by both. -/
theorem signersOf_renewed_again {old : DraftEntry} (hold : old ∈ entries)
    (hfile : old.content.isSome = true) :
    (signedAgain entries first updates second).signersOf
      (ArchiveDraft.renewed updates old).name = [first.chain, second.chain] := by
  have hbefore : old.name ∈ entries.files.map Prod.fst := by
    rw [ArchiveDraft.names_files]
    exact List.mem_map_of_mem (List.mem_filter.2 ⟨hold, hfile⟩)
  have hafter : old.name ∈ (ArchiveDraft.files (entries.update updates)).map Prod.fst :=
    List.mem_map_of_mem (f := Prod.fst) (mem_files_update hentries hdistinct hupdates hold hfile)
  have hall : (signedAgain entries first updates second).signers = [first.chain, second.chain] :=
    signers_signedAgain hapart
  rw [← hall]
  refine signersOf_eq_signers ?_
  rw [signatures_signedAgain hapart, ArchiveDraft.name_renewed]
  exact List.forall_mem_cons.2 ⟨hbefore, List.forall_mem_singleton.2 hafter⟩

/-- A file that the update added is signed by the second only. -/
theorem signersOf_added_again {x : DraftEntry} (hx : x ∈ entries.addedContent updates) :
    (signedAgain entries first updates second).signersOf x.name = [second.chain] := by
  have hcontent : x ∈ (signedAgain entries first updates second).content := by
    rw [content_signedAgain hentries hdistinct hupdates]
    exact List.mem_append_right _ hx
  obtain ⟨hmem, hfile⟩ := List.mem_filter.1 hcontent
  have hafter : x.name ∈ (ArchiveDraft.files (entries.update updates)).map Prod.fst :=
    List.mem_map_of_mem (f := Prod.fst) (ArchiveDraft.mem_files_of_isContent hmem hfile)
  have hbefore : x.name ∉ entries.files.map Prod.fst := by
    rcases ArchiveDraft.mem_update (List.mem_of_mem_filter hx) with hnone | hadded
    · exact absurd hnone List.not_mem_nil
    · rw [ArchiveDraft.names_files]
      intro hname
      have hnew : x.name ∉ entries.map DraftEntry.name := by
        simpa using (List.mem_filter.1 hadded).2
      exact hnew ((List.filter_sublist.map _).subset hname)
  rw [signersOf, signatures_signedAgain hapart,
    List.filter_cons_of_neg (by rw [decide_eq_true_eq]; exact hbefore),
    List.filter_cons_of_pos (by rw [decide_eq_true_eq]; exact hafter)]
  rfl

/-- As long as nothing was changed, the first signature covers what it is over. -/
theorem covers_signedAgain (hsigners : Signer.Independent [first, second])
    (hunchanged : entries.firstChanged? updates = none) :
    (signedAgain entries first updates second).Covers := by
  refine covers_of_same (wellFormed_signedAgain hentries hdistinct hupdates hsigners) ?_
  rw [signatures_signedAgain hapart, List.forall_mem_cons, List.forall_mem_singleton]
  refine ⟨fun f hf => ?_, fun f hf => ⟨f.2, hf, rfl⟩⟩
  obtain ⟨e, he, hfile, rfl⟩ := mem_entries_of_mem_files hf
  exact ⟨_, mem_files_update hentries hdistinct hupdates he hfile,
    ArchiveDraft.digest_renewed hunchanged he hfile⟩

/-! ### What is found after signing again -/

omit hapart in
/-- If a file was changed, the first signature file is refused for the first such file in it. -/
theorem refused_signedAgain (hsigners : Signer.Independent [first, second])
    (hfree : Digest.CollisionFree ((ManifestDraft.stating entries.files).hashed ++
      (ManifestDraft.stating (ArchiveDraft.files (entries.update updates))).hashed))
    {name : String} (hchanged : entries.firstChanged? updates = some name) :
    (Signature.mk first entries.files).read.coveredNames
      (signedAgain entries first updates second).manifest =
        .error (.sectionDiffers first.signatureFileName name .sha256) := by
  have h : (signedAgain entries first updates second).WellFormed :=
    wellFormed_signedAgain hentries hdistinct hupdates hsigners
  obtain ⟨x, hfind, rfl⟩ := Option.map_eq_some_iff.1 hchanged
  obtain ⟨hx, before, after, hsplit, hbefore⟩ := List.find?_eq_some_iff_append.1 hfind
  rw [DraftEntry.changedBy, Bool.and_eq_true, bne_iff_ne] at hx
  -- the content that the manifest states of each file that was there
  obtain ⟨content, hcontent⟩ := exists_content h.nodup_stated
  have hlookup : ∀ e ∈ entries, e.content.isSome = true →
      content e.name = (ArchiveDraft.renewed updates e).writtenContent := fun e he hfile =>
    hcontent _ (mem_files_update hentries hdistinct hupdates he hfile)
  have hthere : ∀ f ∈ entries.files,
      (f.1, content f.1) ∈ (signedAgain entries first updates second).stated := by
    intro f hf
    obtain ⟨e, he, hfile, rfl⟩ := mem_entries_of_mem_files hf
    rw [hlookup e he hfile]
    exact mem_files_update hentries hdistinct hupdates he hfile
  have hsame : ∀ f ∈ ArchiveDraft.files before,
      Digest.sha256.digest f.2 = Digest.sha256.digest (content f.1) := by
    intro f hf
    obtain ⟨e, he, hfile, rfl⟩ := mem_entries_of_mem_files hf
    rw [hlookup e (hsplit ▸ List.mem_append_left _ he) hfile]
    simpa [DraftEntry.changedBy, hfile] using hbefore e he
  have hdiffers :
      Digest.sha256.digest x.writtenContent ≠ Digest.sha256.digest (content x.name) := by
    rw [hlookup x (hsplit ▸ List.mem_append_right _ List.mem_cons_self) hx.1]
    exact hx.2
  have hfiles : entries.files =
      ArchiveDraft.files before ++ (x.name, x.writtenContent) :: ArchiveDraft.files after := by
    rw [hsplit, ArchiveDraft.files_append, ArchiveDraft.files_cons hx.1]
  exact ManifestDraft.coveredNames_differs h.nodup_stated h.oneLine_stated hfree hthere hfiles
    hsame hdiffers

section Found

variable (hsigners : Signer.Independent [first, second])
  (hstored : (signedAgain entries first updates second).draft.Stored)
  (hlimits : limits.Hold (signedAgain entries first updates second).draft)
  {file : String} (hfirst : entries.firstContent? = some file)

include hsigners hstored hlimits hfirst

/-- Then nothing in the archive can be read. -/
theorem collected_changed_again
    (hfree : Digest.CollisionFree ((ManifestDraft.stating entries.files).hashed ++
      (ManifestDraft.stating (ArchiveDraft.files (entries.update updates))).hashed))
    {name : String} (hchanged : entries.firstChanged? updates = some name) :
    (Listing.ofFile limits (signedAgain entries first updates second).file).result =
      .error (.archive (.untrusted (.sectionDiffers first.signatureFileName name .sha256))) := by
  have hsome : (signedAgain entries first updates second).content ≠ [] := by
    rw [ArchiveDraft.firstContent?, ← List.head?_filter] at hfirst
    rw [content_signedAgain hentries hdistinct hupdates]
    intro hnone
    rw [List.append_eq_nil_iff, List.map_eq_nil_iff] at hnone
    rw [hnone.1] at hfirst
    cases hfirst
  exact collected_refused (wellFormed_signedAgain hentries hdistinct hupdates hsigners) hlimits
    (signatures_signedAgain hapart) (hsigners.honest first List.mem_cons_self)
    (refused_signedAgain hentries hdistinct hupdates hsigners hfree hchanged) hstored hsome

variable (hunchanged : entries.firstChanged? updates = none)

omit hstored hfirst in
include hunchanged in
/-- If nothing was changed, every file is granted to those who signed its name. -/
theorem granted_signedAgain {e : DraftEntry}
    (he : e ∈ (signedAgain entries first updates second).content) :
    Granted ((signedAgain entries first updates second).signersOf e.name)
      (answerTo (signedAgain entries first updates second).entries limits e.entry) := by
  have h : (signedAgain entries first updates second).WellFormed :=
    wellFormed_signedAgain hentries hdistinct hupdates hsigners
  have hof : ∀ g ∈ (signedAgain entries first updates second).signatures,
      g.signer ∈ [first, second] := by
    rw [signatures_signedAgain hapart]
    simp
  exact granted_signersOf h hlimits (fun g hg => hsigners.honest _ (hof g hg))
    (covers_signedAgain hentries hdistinct hupdates hapart hsigners hunchanged)
    (nodup_prints h hsigners hof) he fun _ => states_signedAgain he

include hunchanged

theorem found_unchanged_again :
    let found := (Listing.ofFile limits (signedAgain entries first updates second).file).result
    (∀ name, entries.firstAdded? updates = some name →
      found = .error (.disagreement ⟨file, [first.chain.displayName, second.chain.displayName],
        name, [second.chain.displayName]⟩)) ∧
    (entries.firstAdded? updates = none → found = .ok [first.chain, second.chain]) := by
  have h : (signedAgain entries first updates second).WellFormed :=
    wellFormed_signedAgain hentries hdistinct hupdates hsigners
  have hcontent : (signedAgain entries first updates second).content = _ :=
    content_signedAgain hentries hdistinct hupdates
  have hnamed : ∀ e ∈ updates, e.WellNamed := fun e he => (hupdates e he).toWellNamed
  have hprints : ([first.chain, second.chain].map Chain.fingerprint).Nodup := by
    have hne := hsigners.fingerprint_ne List.mem_cons_self
      (List.mem_cons_of_mem _ List.mem_cons_self) hapart
    simpa using hne
  have hgranted := fun e => granted_signedAgain (e := e) hentries hdistinct hupdates hapart hsigners
    hlimits hunchanged
  rw [hcontent] at hgranted
  have hrenewed : ∀ e ∈ (entries.filter DraftEntry.isContent).map (ArchiveDraft.renewed updates),
      Granted [first.chain, second.chain]
        (answerTo (signedAgain entries first updates second).entries limits e.entry) := by
    intro e he
    obtain ⟨old, hold, rfl⟩ := List.mem_map.1 he
    obtain ⟨hmem, hfile⟩ := List.mem_filter.1 hold
    have hsigned := hgranted _ (List.mem_append_left _ he)
    rwa [signersOf_renewed_again hentries hdistinct hupdates hapart hmem
      (DraftEntry.isSome_of_isContent hfile)] at hsigned
  have hnew : ∀ x ∈ entries.addedContent updates, Granted [second.chain]
      (answerTo (signedAgain entries first updates second).entries limits x.entry) := by
    intro x hx
    have hsigned := hgranted x (List.mem_append_right _ hx)
    rwa [signersOf_added_again hentries hdistinct hupdates hapart hx] at hsigned
  have hdiffer : ¬ SamePrints [first.chain, second.chain] [second.chain] := by
    intro hsame
    have hmem := (hsame first.chain.fingerprint).1 List.mem_cons_self
    rw [List.map_singleton, List.mem_singleton] at hmem
    exact (hsigners.fingerprint_ne List.mem_cons_self
      (List.mem_cons_of_mem _ List.mem_cons_self) hapart) hmem
  constructor
  · intro name hadded
    have hothers : ([second.chain].map Chain.fingerprint).Nodup := List.nodup_singleton _
    exact collected_of_added h hstored hcontent hprints hrenewed hnamed hfirst hothers hnew hdiffer
      hadded
  · intro hadded
    exact collected_of_none_added h hstored hcontent hprints hrenewed hnamed hfirst hadded

end Found

end Again

/-! ### The files on the way -/

section Files

variable {first second : Signer} (hentries : ∀ e ∈ entries, e.Ordinary)
  (hdistinct : (entries.map DraftEntry.name).Nodup) (hupdates : ∀ e ∈ updates, e.Ordinary)
  (hfirstNamed : first.NamesFiles)

include hentries hdistinct

theorem draft_signed : (ArchiveDraft.create entries).sign first =
    ((created entries).signedBy first).draft := by
  rw [← draft_created, draft_sign (wellFormed_created hentries hdistinct)]

theorem currentManifest_created :
    (ArchiveDraft.create entries).currentManifest = .stating entries.files := by
  rw [← draft_created, currentManifest_draft (wellFormed_created hentries hdistinct)]
  rfl

include hupdates hfirstNamed

theorem draft_signed_updated : ((ArchiveDraft.create entries).sign first).update updates =
    (((created entries).signedBy first).updated updates).draft := by
  rw [draft_signed hentries hdistinct,
    draft_update ((wellFormed_created hentries hdistinct).signedBy hfirstNamed) hupdates]

theorem currentManifest_signed_updated :
    (((ArchiveDraft.create entries).sign first).update updates).currentManifest =
      .stating (ArchiveDraft.files (entries.update updates)) := by
  rw [draft_signed_updated hentries hdistinct hupdates hfirstNamed, currentManifest_draft
    (((wellFormed_created hentries hdistinct).signedBy hfirstNamed).updated hupdates)]
  rfl

theorem draft_signedAgain :
    (((ArchiveDraft.create entries).sign first).update updates).sign second =
      (signedAgain entries first updates second).draft := by
  rw [draft_signed_updated hentries hdistinct hupdates hfirstNamed, draft_sign
    (((wellFormed_created hentries hdistinct).signedBy hfirstNamed).updated hupdates), signedAgain]

/-- Creating an archive, signing it, updating it and signing it again succeed, and leave the file
of the archive. -/
theorem signedAgain_file (hsecondNamed : second.NamesFiles)
    (hcreated : (ArchiveDraft.create entries).Stored)
    (hsigned : ((ArchiveDraft.create entries).sign first).Stored)
    (hupdated : (((ArchiveDraft.create entries).sign first).update updates).Stored)
    (hagain : ((((ArchiveDraft.create entries).sign first).update updates).sign second).Stored) :
    let signed := (FileState.create entries).file.sign first
    let updated := signed.file.update updates
    signed.result = .ok () ∧ updated.result = .ok () ∧
      updated.file.sign second = ⟨(signedAgain entries first updates second).file, .ok ()⟩ := by
  have h := wellFormed_created hentries hdistinct
  have hone := h.signedBy hfirstNamed
  have htwo := hone.updated hupdates
  rw [draft_signedAgain hentries hdistinct hupdates hfirstNamed] at hagain
  rw [draft_signed_updated hentries hdistinct hupdates hfirstNamed] at hupdated
  rw [draft_signed hentries hdistinct] at hsigned
  rw [← draft_created] at hcreated
  have hsign := sign_file h hcreated hfirstNamed hsigned
  have hupdate := update_file hone hsigned hupdates hupdated
  have hsignAgain := sign_file htwo hupdated hsecondNamed hagain
  simp only [create_file h hcreated, hsign, hupdate, hsignAgain]
  exact ⟨trivial, trivial, rfl⟩

/-- Small archives are stored on the way. -/
theorem stored_onTheWay (hsecondNamed : second.NamesFiles) (hfirst : first.Brief)
    (hsecond : second.Brief) (hmodest : (created entries).Modest 2)
    (hcount : (entries.update updates).length ≤ 100)
    (hnames : ∀ e ∈ updates, (Text.utf8 e.name).length ≤ 1000)
    (hcontents : ∀ e ∈ updates, e.writtenContent.length ≤ 2 ^ 20) :
    (ArchiveDraft.create entries).Stored ∧ ((ArchiveDraft.create entries).sign first).Stored ∧
      (((ArchiveDraft.create entries).sign first).update updates).Stored ∧
      ((((ArchiveDraft.create entries).sign first).update updates).sign second).Stored := by
  have h := wellFormed_created hentries hdistinct
  have hone := h.signedBy hfirstNamed
  have htwo := hone.updated hupdates
  have hmodestOne : ((created entries).signedBy first).Modest 1 := hmodest.signedBy hfirst
  have hmodestTwo : (((created entries).signedBy first).updated updates).Modest (0 + 1) :=
    hmodestOne.updated hcount hnames hcontents
  rw [draft_signedAgain hentries hdistinct hupdates hfirstNamed,
    draft_signed_updated hentries hdistinct hupdates hfirstNamed,
    draft_signed hentries hdistinct, ← draft_created]
  exact ⟨stored h hmodest, stored hone hmodestOne, stored htwo hmodestTwo,
    stored (htwo.signedBy hsecondNamed) (hmodestTwo.signedBy hsecond)⟩

end Files

/-- If the names are alike, the second signer takes the place of the first one, whose signature is
as if it had never been. -/
theorem signedAgain_of_alike {first second : Signer}
    (halike : Text.alike first.keyName second.keyName = true) :
    signedAgain entries first updates second =
      (created (entries.update updates)).signedInTurn [second] := by
  simp [signedAgain, signedInTurn, signedBy, updated, created, halike]

end SignedDraft

/-- Signing again after an update. An archive with at least one file outside the metadata
directory is created and signed by a first signer, updated with any ordinary entries, and then
signed by a second signer whose name is not alike to the first one's. If the update changed a file,
nothing can be read because of the first such file in the first signature file. Otherwise the first
file that the update added is reported for being signed by the second only, while the first file of
all is signed by both. Otherwise the signers are both, in this order.

It is assumed that the reader accepts what the signers sign (`Signer.Honest`), that SHA-256 has no
collision among their two certificates (`Signer.Independent.free`) nor among the manifests and
sections that are hashed (`hfree`), that all archives on the way fit and are read as they were
written, and that the last one keeps to the limits. Contents count as changed if their SHA-256
digests differ. -/
theorem signing_after_update {entries : ArchiveDraft} {updates : List DraftEntry}
    {first second : Signer} {limits : SizeLimits} {file : String}
    (hentries : ∀ e ∈ entries, e.Ordinary) (hdistinct : (entries.map DraftEntry.name).Nodup)
    (hfirst : entries.firstContent? = some file) (hupdates : ∀ e ∈ updates, e.Ordinary)
    (hsigners : Signer.Independent [first, second])
    (hapart : Text.alike first.keyName second.keyName = false)
    (hcreated : (ArchiveDraft.create entries).Stored)
    (hsigned : ((ArchiveDraft.create entries).sign first).Stored)
    (hupdated : (((ArchiveDraft.create entries).sign first).update updates).Stored)
    (hagain : ((((ArchiveDraft.create entries).sign first).update updates).sign second).Stored)
    (hlimits :
      limits.Hold ((((ArchiveDraft.create entries).sign first).update updates).sign second))
    (hfree : Digest.CollisionFree ((ArchiveDraft.create entries).currentManifest.hashed ++
      (((ArchiveDraft.create entries).sign first).update updates).currentManifest.hashed)) :
    let signed := (FileState.create entries).file.sign first
    let updated := signed.file.update updates
    let again := updated.file.sign second
    let found := (Listing.ofFile limits again.file).result
    signed.result = .ok () ∧ updated.result = .ok () ∧ again.result = .ok () ∧
    (∀ name, entries.firstChanged? updates = some name →
      found = .error (.archive (.untrusted
        (.sectionDiffers first.signatureFileName name .sha256)))) ∧
    (entries.firstChanged? updates = none → ∀ name, entries.firstAdded? updates = some name →
      found = .error (.disagreement ⟨file, [first.chain.displayName, second.chain.displayName],
        name, [second.chain.displayName]⟩)) ∧
    (entries.firstChanged? updates = none → entries.firstAdded? updates = none →
      found = .ok [first.chain, second.chain]) := by
  obtain ⟨hfirstNamed, hsecondNamed⟩ := List.forall_mem_cons.1 hsigners.named
  have hsecondNamed := List.forall_mem_singleton.1 hsecondNamed
  obtain ⟨hsignedOk, hupdatedOk, hagainFile⟩ := SignedDraft.signedAgain_file hentries hdistinct
    hupdates hfirstNamed hsecondNamed hcreated hsigned hupdated hagain
  -- the archive that is found, and the manifests that were signed
  rw [SignedDraft.draft_signedAgain hentries hdistinct hupdates hfirstNamed] at hagain hlimits
  rw [SignedDraft.currentManifest_created hentries hdistinct,
    SignedDraft.currentManifest_signed_updated hentries hdistinct hupdates hfirstNamed] at hfree
  intro signed updated again found
  have hagainFile :
      again = ⟨(SignedDraft.signedAgain entries first updates second).file, .ok ()⟩ := hagainFile
  have hfound : found = (Listing.ofFile limits
      (SignedDraft.signedAgain entries first updates second).file).result := by
    change (Listing.ofFile limits again.file).result = _
    rw [hagainFile]
  rw [hagainFile, hfound]
  refine ⟨hsignedOk, hupdatedOk, rfl, fun name hchanged => ?_, fun hunchanged => ?_,
    fun hunchanged => ?_⟩
  · exact SignedDraft.collected_changed_again hentries hdistinct hupdates hapart hsigners hagain
      hlimits hfirst hfree hchanged
  · exact (SignedDraft.found_unchanged_again hentries hdistinct hupdates hapart hsigners hagain
      hlimits hfirst hunchanged).1
  · exact (SignedDraft.found_unchanged_again hentries hdistinct hupdates hapart hsigners hagain
      hlimits hfirst hunchanged).2

/-- A file that is new to the archive with one file. -/
def newFile : List DraftEntry := [.file "b.txt" (Bytes.ofAscii "b")]

theorem collisionFree_newFile :
    Digest.CollisionFree ((ManifestDraft.stating (ArchiveDraft.files Unrecognised.entries)).hashed ++
      (ManifestDraft.stating (ArchiveDraft.files (Unrecognised.entries.update newFile))).hashed) := by
  have hfree : Digest.CollisionFree
      ((ManifestDraft.stating (ArchiveDraft.files Unrecognised.entries)).encode ::
        (ManifestDraft.stating (ArchiveDraft.files
          (Unrecognised.entries.update newFile))).hashed) :=
    Digest.collisionFree_of_nodup (by decide +kernel)
  have hfiles : ArchiveDraft.files Unrecognised.entries ⊆
      ArchiveDraft.files (Unrecognised.entries.update newFile) := by decide
  refine hfree.mono fun m hm => ?_
  rcases List.mem_append.1 hm with hold | hnew
  · rw [ManifestDraft.hashed, List.mem_cons, ManifestDraft.sectionOctets_stating,
      List.map_map] at hold
    rcases hold with rfl | hsection
    · exact List.mem_cons_self
    · refine List.mem_cons_of_mem _ (List.mem_cons_of_mem _ ?_)
      rw [ManifestDraft.sectionOctets_stating, List.map_map]
      exact List.map_subset _ hfiles hsection
  · exact List.mem_cons_of_mem _ hnew

/-- The new file is signed by the second signer only. -/
theorem new_file_is_signed_by_the_second :
    let signed := (FileState.create Unrecognised.entries).file.sign .first
    let again := (signed.file.update newFile).file.sign .second
    again.result = .ok () ∧ (Listing.ofFile .none again.file).result =
      .error (.disagreement ⟨"a.txt",
        [Signer.first.chain.displayName, Signer.second.chain.displayName], "b.txt",
        [Signer.second.chain.displayName]⟩) := by
  have hentries : ∀ e ∈ Unrecognised.entries, e.Ordinary := by decide
  have hdistinct : (Unrecognised.entries.map DraftEntry.name).Nodup := by decide
  have hupdates : ∀ e ∈ newFile, e.Ordinary := by decide
  have hfirst : Unrecognised.entries.firstContent? = some "a.txt" := by decide
  have hunchanged : Unrecognised.entries.firstChanged? newFile = none := by decide +kernel
  have hadded : Unrecognised.entries.firstAdded? newFile = some "b.txt" := by decide
  have hnamed : Signer.first.NamesFiles := by decide
  obtain ⟨hcreated, hsigned, hupdated, hagain⟩ := SignedDraft.stored_onTheWay hentries hdistinct
    hupdates hnamed (by decide) Signer.brief_first Signer.brief_second
    (SignedDraft.modest_created (by decide) (by decide)
      (ArchiveDraft.length_names_le (by decide)) (by decide +kernel))
    (by decide) (ArchiveDraft.length_names_le (by decide)) (by decide +kernel)
  have hfree := collisionFree_newFile
  rw [← SignedDraft.currentManifest_created hentries hdistinct,
    ← SignedDraft.currentManifest_signed_updated hentries hdistinct hupdates hnamed] at hfree
  have hfound := signing_after_update hentries hdistinct hfirst hupdates
    Signer.independent_first_second (by decide) hcreated hsigned hupdated hagain
    (SizeLimits.hold_none _) hfree
  exact ⟨hfound.2.2.1, hfound.2.2.2.2.1 hunchanged "b.txt" hadded⟩

/-- A signer whose name is alike to that of the first one. -/
def Signer.capital : Signer := .plain "FIRST" 2 "Second"

def Signer.knownCapital : Known :=
  .plain "FIRST" 2 "Second" honest_second.read (by decide +kernel)
    (Text.length_utf8_le_of_short (by decide)) (Text.length_utf8_le_of_short (by decide))

theorem Signer.honest_capital : capital.Honest := knownCapital.honest

theorem Signer.brief_capital : capital.Brief := knownCapital.brief

theorem Signer.independent_capital : Independent [capital] where
  named := by decide
  honest := List.forall_mem_singleton.2 honest_capital
  different := by
    intro s hs t ht hapart
    rw [List.mem_singleton.1 hs, List.mem_singleton.1 ht, Text.alike_refl] at hapart
    cases hapart
  free := Digest.collisionFree_of_nodup (List.nodup_singleton _)

/-- The changed file is no cause for complaint if the first signature was replaced. -/
theorem SignedDraft.collected_capital : (Listing.ofFile .none
    (signedAgain Unrecognised.entries .first Unrecognised.updates .capital).file).result =
      .ok [Signer.capital.chain] := by
  have hplain : (Unrecognised.entries.update Unrecognised.updates).Plain :=
    ⟨by decide, by decide⟩
  have hfirst :
      (Unrecognised.entries.update Unrecognised.updates).firstContent? = some "a.txt" := by
    decide
  have hmodest :
      (created (Unrecognised.entries.update Unrecognised.updates)).Modest (0 + 1) :=
    modest_created (by decide) (by decide) (ArchiveDraft.length_names_le (by decide))
      (by decide +kernel)
  have hsigners : ∀ s ∈ [Signer.capital], s.NamesFiles ∧ s.Brief :=
    List.forall_mem_singleton.2 ⟨by decide, Signer.brief_capital⟩
  have hstored := stored_scanl (wellFormed_created_plain hplain) hsigners hmodest
  rw [draft_created] at hstored
  rw [signedAgain_of_alike (by decide)]
  exact collected_inTurn hplain Signer.independent_capital hfirst (List.cons_ne_nil _ _) hstored
    (SizeLimits.hold_none _)

/-- A changed file goes unnoticed if the second signer's name is alike to the first one's, or if
neither signer is recognised. -/
theorem changes_before_signing_again_go_unnoticed :
    let created := FileState.create Unrecognised.entries
    let replaced :=
      ((created.file.sign .first).file.update Unrecognised.updates).file.sign .capital
    let unrecognised :=
      ((created.file.sign .blank).file.update Unrecognised.updates).file.sign .nested
    Unrecognised.entries.firstChanged? Unrecognised.updates = some "a.txt" ∧
      (Signer.first.keyName ≠ Signer.capital.keyName ∧
        Signer.first.certificate ≠ Signer.capital.certificate ∧
        Signer.first.Honest ∧ Signer.capital.Honest ∧ replaced.result = .ok () ∧
        (Listing.ofFile .none replaced.file).result = .ok [Signer.capital.chain] ∧
        (Listing.ofFile .none replaced.file).result ≠ .error (.archive (.untrusted
          (.sectionDiffers Signer.first.signatureFileName "a.txt" .sha256)))) ∧
      Signer.blank.keyName ≠ Signer.nested.keyName ∧
        Signer.blank.certificate ≠ Signer.nested.certificate ∧
        Signer.blank.Honest ∧ Signer.nested.Honest ∧ unrecognised.result = .ok () ∧
        (Listing.ofFile .none unrecognised.file).result = .ok [] ∧
        (Listing.ofFile .none unrecognised.file).result ≠ .error (.archive (.untrusted
          (.sectionDiffers Signer.blank.signatureFileName "a.txt" .sha256))) := by
  have hentries : ∀ e ∈ Unrecognised.entries, e.Ordinary := by decide
  have hdistinct : (Unrecognised.entries.map DraftEntry.name).Nodup := by decide
  have hupdates : ∀ e ∈ Unrecognised.updates, e.Ordinary := by decide
  have hchanged : Unrecognised.entries.firstChanged? Unrecognised.updates = some "a.txt" := by
    decide +kernel
  have hnamed : Signer.first.NamesFiles := by decide
  have hnamedSecond : Signer.capital.NamesFiles := by decide
  obtain ⟨hcreated, hsigned, hupdated, hagain⟩ := SignedDraft.stored_onTheWay hentries hdistinct
    hupdates hnamed hnamedSecond Signer.brief_first Signer.brief_capital
    (SignedDraft.modest_created (by decide) (by decide)
      (ArchiveDraft.length_names_le (by decide)) (by decide +kernel))
    (by decide) (ArchiveDraft.length_names_le (by decide)) (by decide +kernel)
  obtain ⟨-, -, hreplaced⟩ := SignedDraft.signedAgain_file hentries hdistinct hupdates hnamed
    hnamedSecond hcreated hsigned hupdated hagain
  have hunrecognised :
      ((((FileState.create Unrecognised.entries).file.sign .blank).file.update
        Unrecognised.updates).file.sign .nested) =
          ⟨.octets (Zip.encode ((Unrecognised.front ++ Unrecognised.updates).sign .nested)),
            .ok ()⟩ := by
    simp only [Unrecognised.create_entries, Unrecognised.sign_created, Unrecognised.update_signed,
      Unrecognised.sign_front (by simp : Unrecognised.updates ∈ [Unrecognised.entries, _])]
  simp only [hreplaced, hunrecognised, SignedDraft.collected_capital,
    Unrecognised.collected_signed_again]
  exact ⟨hchanged, ⟨by decide, by decide, Signer.honest_first, Signer.honest_capital,
    trivial, trivial, nofun⟩, by decide, by decide, Signer.honest_blank,
    Signer.honest_nested, trivial, trivial, nofun⟩

end JarSigners
