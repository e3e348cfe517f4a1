import JarSigners.Proofs.Signing.Unrecognised
import JarSigners.Proofs.Signing.Updated

/-!
# Signing in turn, and updates after that

Signers sign an archive one after the other, and a name that is used again replaces its earlier
signature. What is collected are the signers of the last uses of all names
(`additive_signing_is_recognised`). An update after that has one of three outcomes, and the list of
updates alone decides which one (`update_after_signing`).
-/

set_option autoImplicit false

namespace JarSigners

/-! ### Signing in turn -/

theorem Signer.lastUses_sublist (signers : List Signer) : (lastUses signers).Sublist signers := by
  induction signers with
  | nil => exact List.Sublist.slnil
  | cons s later ih =>
    rw [lastUses]
    split
    · exact ih.cons s
    · exact ih.cons_cons s

/-- Entries that are plain and have distinct names. -/
structure ArchiveDraft.Plain (entries : ArchiveDraft) : Prop where
  plain : ∀ e ∈ entries, e.Plain
  distinct : (entries.map DraftEntry.name).Nodup

namespace SignedDraft

section InTurn

variable {entries : ArchiveDraft} {signers : List Signer} {limits : SizeLimits}
  (hentries : entries.Plain) (hsigners : Signer.Independent signers)

include hentries

theorem wellFormed_created_plain : (created entries).WellFormed :=
  wellFormed_created (fun e he => (hentries.plain e he).ordinary) hentries.distinct

include hsigners

theorem wellFormed_inTurn : ((created entries).signedInTurn signers).WellFormed :=
  wellFormed_signedInTurn (wellFormed_created_plain hentries) hsigners.named

omit hentries hsigners in
theorem signers_inTurn (entries : ArchiveDraft) (signers : List Signer) :
    ((created entries).signedInTurn signers).signers =
      (Signer.lastUses signers).map Signer.chain := by
  rw [SignedDraft.signers, (signatures_signedInTurn entries signers).1, List.map_map]
  rfl

omit hentries hsigners in
theorem signer_mem_inTurn : ∀ g ∈ ((created entries).signedInTurn signers).signatures,
    g.signer ∈ signers := by
  rw [(signatures_signedInTurn entries signers).1]
  exact List.forall_mem_map.2 fun s hs => (Signer.lastUses_sublist signers).subset hs

omit hentries hsigners in
theorem signatures_inTurn_ne_nil (entries : ArchiveDraft) (hsome : signers ≠ []) :
    ((created entries).signedInTurn signers).signatures ≠ [] := by
  rw [(signatures_signedInTurn entries signers).1, Ne, List.map_eq_nil_iff]
  cases signers using List.reverseRecOn with
  | nil => exact absurd rfl hsome
  | append_singleton signers s =>
    rw [lastUses_concat]
    exact List.concat_ne_nil _ _

omit hentries hsigners in
theorem complete_inTurn (entries : ArchiveDraft) (hsome : signers ≠ []) :
    ((created entries).signedInTurn signers).Complete :=
  complete_signedInTurn entries hsome

theorem draft_inTurn : ((created entries).signedInTurn signers).draft =
    signers.foldl ArchiveDraft.sign (.create entries) := by
  rw [← draft_created, foldl_sign (wellFormed_created_plain hentries) hsigners.named]

omit hentries in
theorem honest_inTurn : ∀ g ∈ ((created entries).signedInTurn signers).signatures,
    g.signer.Honest :=
  fun g hg => hsigners.honest _ (signer_mem_inTurn g hg)

theorem prints_inTurn :
    (((created entries).signedInTurn signers).signers.map Chain.fingerprint).Nodup :=
  nodup_prints (wellFormed_inTurn hentries hsigners) hsigners signer_mem_inTurn

/-- Creating an archive and signing it in turn leaves the file of the signed archive. -/
theorem create_signInTurn
    (hstored : ∀ draft ∈ signers.scanl ArchiveDraft.sign (.create entries), draft.Stored) :
    FileState.create entries = ⟨(created entries).file, .ok ()⟩ ∧
      (created entries).file.signInTurn signers =
        ⟨((created entries).signedInTurn signers).file, .ok ()⟩ := by
  have hcreated := wellFormed_created_plain hentries
  rw [← draft_created] at hstored
  have hfirst : (created entries).draft.Stored := hstored _ (List.mem_of_head? List.head?_scanl)
  exact ⟨create_file hcreated hfirst, signInTurn_file hcreated hsigners.named hstored⟩

theorem stored_inTurn
    (hstored : ∀ draft ∈ signers.scanl ArchiveDraft.sign (.create entries), draft.Stored) :
    ((created entries).signedInTurn signers).draft.Stored := by
  rw [draft_inTurn hentries hsigners]
  exact hstored _ (List.mem_of_getLast? List.getLast?_scanl)

omit hentries hsigners in
theorem rest_inTurn (entries : ArchiveDraft) (signers : List Signer) :
    ((created entries).signedInTurn signers).rest = entries :=
  (signatures_signedInTurn entries signers).2.1

omit hentries hsigners in
theorem updated_nil (a : SignedDraft) : a.updated [] = a := rfl

/-- What is collected before any update. -/
theorem collected_inTurn {first : String} (hfirst : entries.firstContent? = some first)
    (hsome : signers ≠ [])
    (hstored : ∀ draft ∈ signers.scanl ArchiveDraft.sign (.create entries), draft.Stored)
    (hlimits : limits.Hold (signers.foldl ArchiveDraft.sign (.create entries))) :
    (Listing.ofFile limits ((created entries).signedInTurn signers).file).result =
      .ok ((Signer.lastUses signers).map Signer.chain) := by
  have hrest := rest_inTurn entries signers
  have hlast := stored_inTurn hentries hsigners hstored
  rw [← draft_inTurn hentries hsigners] at hlimits
  rw [← hrest] at hfirst
  -- signing in turn is followed by an update without entries
  have hnone : ∀ e ∈ ([] : List DraftEntry), e.Ordinary := fun _ h => absurd h List.not_mem_nil
  have hunchanged : ((created entries).signedInTurn signers).rest.firstChanged? [] = none := by
    rw [ArchiveDraft.firstChanged?, Option.map_eq_none_iff, List.find?_eq_none]
    intro e _
    simp [DraftEntry.changedBy, ArchiveDraft.renewed]
  rw [← updated_nil ((created entries).signedInTurn signers)] at hlimits hlast
  have hfound := collected_unchanged (wellFormed_inTurn hentries hsigners)
    (complete_inTurn entries hsome) hnone hlimits (honest_inTurn hsigners)
    (prints_inTurn hentries hsigners) hlast hfirst hunchanged rfl
  rw [updated_nil, signers_inTurn] at hfound
  exact hfound

end InTurn

end SignedDraft

/-- Additive signing is recognised. An archive is created with at least one file, and independent
signers sign it in turn; some of them may have names that are alike, and keys of whatever kinds.
Then all of this succeeds, and the signers that are found are the last ones of each name, in the
order in which these signed.

It is assumed that the reader accepts what these signers sign (`Signer.Honest`), that SHA-256 has no
collision among their certificates (`Signer.Independent.free`), that all archives on the way fit and
are read as they were written, and that the last one keeps to the limits. -/
theorem additive_signing_is_recognised {entries : ArchiveDraft} {signers : List Signer}
    {limits : SizeLimits} (hentries : entries.Plain)
    (hfile : ∃ e ∈ entries, e.content.isSome = true) (hsome : signers ≠ [])
    (hsigners : Signer.Independent signers)
    (hstored : ∀ draft ∈ signers.scanl ArchiveDraft.sign (.create entries), draft.Stored)
    (hlimits : limits.Hold (signers.foldl ArchiveDraft.sign (.create entries))) :
    let created := FileState.create entries
    let signed := created.file.signInTurn signers
    created.result = .ok () ∧ signed.result = .ok () ∧
      (Listing.ofFile limits signed.file).result =
        .ok ((Signer.lastUses signers).map Signer.chain) := by
  obtain ⟨first, hfirst⟩ : ∃ first, entries.firstContent? = some first := by
    obtain ⟨e, he, hcontent⟩ := hfile
    have hsome : (entries.find? DraftEntry.isContent).isSome = true :=
      List.find?_isSome.2 ⟨e, he, (hentries.plain e he).isContent_of_file hcontent⟩
    obtain ⟨x, hx⟩ := Option.isSome_iff_exists.1 hsome
    exact ⟨x.name, by rw [ArchiveDraft.firstContent?, hx, Option.map_some]⟩
  obtain ⟨hcreate, hsign⟩ := SignedDraft.create_signInTurn hentries hsigners hstored
  have hcollected :=
    SignedDraft.collected_inTurn hentries hsigners hfirst hsome hstored hlimits
  intro created signed
  have hcreated : created = ⟨(SignedDraft.created entries).file, .ok ()⟩ := hcreate
  have hsigned : signed = ⟨((SignedDraft.created entries).signedInTurn signers).file, .ok ()⟩ := by
    change created.file.signInTurn signers = _
    rw [hcreated, hsign]
  rw [hsigned, hcreated]
  exact ⟨rfl, rfl, hcollected⟩

/-- A directory and two files. -/
def sampleEntries : ArchiveDraft :=
  [.directory "docs", .file "docs/a.txt" (Bytes.ofAscii "a"), .file "b.txt" []]

theorem plain_sampleEntries : sampleEntries.Plain where
  plain := by decide
  distinct := by decide

theorem named_brief_samples : ∀ s ∈ [Signer.first, Signer.second], s.NamesFiles ∧ s.Brief :=
  List.forall_mem_cons.2 ⟨⟨by decide, Signer.brief_first⟩,
    List.forall_mem_singleton.2 ⟨by decide, Signer.brief_second⟩⟩

theorem modest_sampleEntries {room : Nat} (hroom : room ≤ 100) :
    (SignedDraft.created sampleEntries).Modest room :=
  SignedDraft.modest_created hroom (by decide) (ArchiveDraft.length_names_le (by decide))
    (by decide +kernel)

/-- Archives of the sample entries are stored while the sample signers sign them. -/
theorem stored_samples {signers : List Signer}
    (hsamples : ∀ s ∈ signers, s ∈ [Signer.first, Signer.second]) (hfew : signers.length ≤ 100) :
    ∀ draft ∈ signers.scanl ArchiveDraft.sign (.create sampleEntries), draft.Stored := by
  have hsigners : ∀ s ∈ signers, s.NamesFiles ∧ s.Brief :=
    fun s hs => named_brief_samples s (hsamples s hs)
  have hmodest : (SignedDraft.created sampleEntries).Modest (0 + signers.length) :=
    modest_sampleEntries (by omega)
  rw [← SignedDraft.draft_created]
  exact SignedDraft.stored_scanl (SignedDraft.wellFormed_created_plain plain_sampleEntries) hsigners
    hmodest

/-- Whoever signs again comes last. -/
theorem first_signer_signs_again :
    let signers := [Signer.first, Signer.second, Signer.first]
    let signed := (FileState.create sampleEntries).file.signInTurn signers
    sampleEntries.Plain ∧ Signer.Independent signers ∧
      (∀ draft ∈ signers.scanl ArchiveDraft.sign (.create sampleEntries), draft.Stored) ∧
      (Listing.ofFile .none signed.file).result =
        .ok [Signer.second.chain, Signer.first.chain] := by
  have hsamples : ∀ s ∈ [Signer.first, Signer.second, Signer.first],
      s ∈ [Signer.first, Signer.second] := by simp
  have hsigners := Signer.independent_first_second.mono hsamples
  have hstored := stored_samples hsamples (by decide)
  have hfile : ∃ e ∈ sampleEntries, e.content.isSome = true := by decide
  have hfound := additive_signing_is_recognised plain_sampleEntries hfile
    (List.cons_ne_nil _ _) hsigners hstored (SizeLimits.hold_none _)
  exact ⟨plain_sampleEntries, hsigners, hstored, hfound.2.2⟩

/-- What an update after signing leads to. An archive with at least one file is created, and
independent signers sign it in turn; then it is updated with any plain entries. Changed contents
of a file that was there make it unreadable, and the first such file in the archive is reported.
Otherwise the first file that was added is reported for having no signers, while the first file
of all has all of them. Otherwise the signers are the same as before, in the same order.

It is assumed that the reader accepts what these signers sign (`Signer.Honest`), that SHA-256 has no
collision among their certificates (`Signer.Independent.free`), that all archives on the way fit and
are read as they were written, and that those that are read for their signers keep to the limits.
Contents count as changed if their SHA-256 digests differ. -/
theorem update_after_signing {entries : ArchiveDraft} {signers : List Signer}
    {updates : List DraftEntry} {limits : SizeLimits} {first : String}
    (hentries : entries.Plain) (hfirst : entries.firstContent? = some first)
    (hsome : signers ≠ []) (hsigners : Signer.Independent signers)
    (hupdates : ∀ e ∈ updates, e.Plain)
    (hstored : ∀ draft ∈ signers.scanl ArchiveDraft.sign (.create entries), draft.Stored)
    (hupdated :
      ((signers.foldl ArchiveDraft.sign (.create entries)).update updates).Stored)
    (hlimits : limits.Hold (signers.foldl ArchiveDraft.sign (.create entries)))
    (hlimitsUpdated :
      limits.Hold ((signers.foldl ArchiveDraft.sign (.create entries)).update updates)) :
    let all := (Signer.lastUses signers).map Signer.chain
    let signed := (FileState.create entries).file.signInTurn signers
    let updated := signed.file.update updates
    let found := (Listing.ofFile limits updated.file).result
    signed.result = .ok () ∧ (Listing.ofFile limits signed.file).result = .ok all ∧
    updated.result = .ok () ∧
    (∀ name, entries.firstChanged? updates = some name →
      found = .error (.archive (.untrusted (.entryDiffers name .sha256)))) ∧
    (entries.firstChanged? updates = none → ∀ name, entries.firstAdded? updates = some name →
      found = .error (.disagreement ⟨first, all.map Chain.displayName, name, []⟩)) ∧
    (entries.firstChanged? updates = none → entries.firstAdded? updates = none →
      found = .ok all) := by
  have h := SignedDraft.wellFormed_inTurn hentries hsigners
  have hordinary : ∀ e ∈ updates, e.Ordinary := fun e he => (hupdates e he).ordinary
  obtain ⟨hcreate, hsign⟩ := SignedDraft.create_signInTurn hentries hsigners hstored
  have hcollected :=
    SignedDraft.collected_inTurn hentries hsigners hfirst hsome hstored hlimits
  rw [← SignedDraft.draft_inTurn hentries hsigners, SignedDraft.draft_update h hordinary]
    at hupdated hlimitsUpdated
  have hupdate := SignedDraft.update_file h (SignedDraft.stored_inTurn hentries hsigners hstored)
    hordinary hupdated
  intro all signed updated found
  have hsigned : signed = ⟨((SignedDraft.created entries).signedInTurn signers).file, .ok ()⟩ := by
    change (FileState.create entries).file.signInTurn signers = _
    rw [hcreate, hsign]
  have hfile : updated =
      ⟨(((SignedDraft.created entries).signedInTurn signers).updated updates).file, .ok ()⟩ := by
    change signed.file.update updates = _
    rw [hsigned, hupdate]
  have hrest := SignedDraft.rest_inTurn entries signers
  have hplain : ∀ e ∈ ((SignedDraft.created entries).signedInTurn signers).rest, e.Plain := by
    rw [hrest]
    exact hentries.plain
  have hfirstRest :
      ((SignedDraft.created entries).signedInTurn signers).rest.firstContent? = some first := by
    rw [hrest]
    exact hfirst
  have hfound := SignedDraft.found_updated h (SignedDraft.complete_inTurn entries hsome) hordinary
    hlimitsUpdated (SignedDraft.honest_inTurn hsigners)
    (SignedDraft.prints_inTurn hentries hsigners) hupdated
    (SignedDraft.signatures_inTurn_ne_nil entries hsome) hplain hfirstRest
  rw [hrest, SignedDraft.signers_inTurn entries signers] at hfound
  have hsame : found = (Listing.ofFile limits
      (((SignedDraft.created entries).signedInTurn signers).updated updates).file).result := by
    change (Listing.ofFile limits updated.file).result = _
    rw [hfile]
  rw [hsigned, hfile, hsame]
  exact ⟨rfl, hcollected, rfl, hfound⟩

/-- One of the files of the sample entries as it is, and another file. -/
def sampleUpdates : List DraftEntry :=
  [.file "b.txt" [], .file "c.txt" (Bytes.ofAscii "c")]

theorem stored_sampleUpdates :
    (([Signer.first, Signer.second].foldl ArchiveDraft.sign (.create sampleEntries)).update
      sampleUpdates).Stored := by
  have hbrief : ∀ s ∈ [Signer.first, Signer.second], s.Brief :=
    fun s hs => (named_brief_samples s hs).2
  have hsigners := Signer.independent_first_second
  have hordinary : ∀ e ∈ sampleUpdates, e.Ordinary := by decide
  have h := SignedDraft.wellFormed_inTurn plain_sampleEntries hsigners
  have hmodest : ((SignedDraft.created sampleEntries).signedInTurn
      [Signer.first, Signer.second]).Modest 0 :=
    SignedDraft.Modest.signedInTurn hbrief (modest_sampleEntries (by decide))
  rw [← SignedDraft.draft_inTurn plain_sampleEntries hsigners, SignedDraft.draft_update h hordinary]
  exact SignedDraft.stored (h.updated hordinary)
    (hmodest.updated (by decide) (ArchiveDraft.length_names_le (by decide)) (by decide +kernel))

/-- The file that was added has no signers. -/
theorem added_file_has_no_signers :
    let signers := [Signer.first, Signer.second]
    let signed := (FileState.create sampleEntries).file.signInTurn signers
    sampleEntries.Plain ∧ (∀ e ∈ sampleUpdates, e.Plain) ∧ Signer.Independent signers ∧
      (∀ draft ∈ signers.scanl ArchiveDraft.sign (.create sampleEntries), draft.Stored) ∧
      ((signers.foldl ArchiveDraft.sign (.create sampleEntries)).update sampleUpdates).Stored ∧
      (Listing.ofFile .none (signed.file.update sampleUpdates).file).result =
        .error (.disagreement ⟨"docs/a.txt",
          [Signer.first.chain.displayName, Signer.second.chain.displayName], "c.txt", []⟩) := by
  have hupdates : ∀ e ∈ sampleUpdates, e.Plain := by decide
  have hsigners := Signer.independent_first_second
  have hstored := stored_samples (fun s hs => hs) (by decide : [Signer.first, Signer.second].length ≤ 100)
  have hunchanged : sampleEntries.firstChanged? sampleUpdates = none := by decide +kernel
  have hadded : sampleEntries.firstAdded? sampleUpdates = some "c.txt" := by decide
  have hfirst : sampleEntries.firstContent? = some "docs/a.txt" := by decide
  have hfound := update_after_signing plain_sampleEntries hfirst (List.cons_ne_nil _ _) hsigners
    hupdates hstored stored_sampleUpdates (SizeLimits.hold_none _) (SizeLimits.hold_none _)
  exact ⟨plain_sampleEntries, hupdates, hsigners, hstored, stored_sampleUpdates,
    hfound.2.2.2.2.1 hunchanged "c.txt" hadded⟩

/-- Signers who are not recognised leave changes unnoticed. -/
theorem unrecognised_signers_leave_changes_unnoticed :
    let created := FileState.create Unrecognised.entries
    let signed := created.file.signInTurn [Signer.blank, Signer.nested]
    let updated := signed.file.update Unrecognised.updates
    Unrecognised.entries.Plain ∧ (∀ e ∈ Unrecognised.updates, e.Plain) ∧
      Signer.blank.Honest ∧ Signer.nested.Honest ∧
      Signer.blank.keyName ≠ Signer.nested.keyName ∧
      Signer.blank.certificate ≠ Signer.nested.certificate ∧
      created.result = .ok () ∧ signed.result = .ok () ∧ updated.result = .ok () ∧
      Unrecognised.entries.firstChanged? Unrecognised.updates = some "a.txt" ∧
      (Listing.ofFile .none updated.file).result = .ok [] ∧
      (Listing.ofFile .none updated.file).result ≠
        .error (.archive (.untrusted (.entryDiffers "a.txt" .sha256))) := by
  have hplain : ∀ rest ∈ [Unrecognised.entries, Unrecognised.updates], ∀ e ∈ rest, e.Plain := by
    decide
  have hchanged : Unrecognised.entries.firstChanged? Unrecognised.updates = some "a.txt" := by
    decide +kernel
  have hfound := Unrecognised.collected_updated
  simp only [Unrecognised.create_entries, Unrecognised.signInTurn_created,
    Unrecognised.update_front_sign, hfound]
  exact ⟨⟨hplain _ List.mem_cons_self, by decide⟩, hplain _ (by simp), Signer.honest_blank,
    Signer.honest_nested, by decide, by decide, trivial, trivial, trivial, hchanged,
    trivial, nofun⟩

end JarSigners
