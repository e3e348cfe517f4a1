import JarSigners.Proofs.Archive.EntryNames
import Mathlib.Data.List.Basic
import Mathlib.Data.List.Pairwise

/-!
# Which entries signatures involve

Loading the signatures of an archive looks at its manifest, at the blocks that have a signature
file, and at these files. Names alone say which entries these are. All others are uninvolved:
an archive loads its signatures as it would with one of them more (`verifySignatures_insert`),
and what their payloads are does not matter (`verifySignatures_replace`). Where no two names
are alike there is one entry for each name, and the pairs do not depend on the order of the
entries (`pairedBlocks_perm`).
-/

set_option autoImplicit false

namespace JarSigners

/-! ### Pairs -/

theorem mem_pairedBlocks_iff {entries : List Entry} {p : PairedBlock} :
    p ∈ pairedBlocks entries ↔
      p.block ∈ entries ∧ EntryName.isBlock p.block.name = true ∧
        signatureFileBeside? entries p.block = some p.signatureFile := by
  simp only [pairedBlocks, signatureBlocks, List.mem_filterMap, List.mem_filter,
    Option.map_eq_some_iff]
  constructor
  · rintro ⟨block, ⟨hmem, hblock⟩, file, hfile, rfl⟩
    exact ⟨hmem, hblock, hfile⟩
  · rintro ⟨hmem, hblock, hfile⟩
    exact ⟨p.block, ⟨hmem, hblock⟩, p.signatureFile, hfile, rfl⟩

/-- Blocks and signature files are entries of the archive. -/
theorem mem_of_mem_pairedBlocks {entries : List Entry} {p : PairedBlock}
    (h : p ∈ pairedBlocks entries) : p.block ∈ entries ∧ p.signatureFile ∈ entries := by
  obtain ⟨hblock, _, hfile⟩ := mem_pairedBlocks_iff.1 h
  obtain ⟨name, _, hfound⟩ := Option.bind_eq_some_iff.1 hfile
  exact ⟨hblock, List.mem_of_find?_eq_some hfound⟩

/-- The pair that an entry begins, if it is a block that has a signature file. -/
def pair? (entries : List Entry) (e : Entry) : Option PairedBlock :=
  if EntryName.isBlock e.name then (signatureFileBeside? entries e).map (PairedBlock.mk e)
  else none

theorem pairedBlocks_eq_filterMap (entries : List Entry) :
    pairedBlocks entries = entries.filterMap (pair? entries) := by
  rw [pairedBlocks, signatureBlocks, List.filterMap_filter]
  rfl

/-! ### Entries that play no part -/

/-- An entry that plays no part in loading: it is not a manifest, and neither a block that has a
signature file nor the signature file of a block. -/
structure Uninvolved (entries : List Entry) (e : Entry) : Prop where
  notManifest : Text.alike e.name EntryName.manifest = false
  noPairedBlock : EntryName.isBlock e.name = true → signatureFileBeside? entries e = none
  noSignatureFile : ∀ block ∈ signatureBlocks entries, ∀ file,
    EntryName.signatureFileOf? block.name = some file → Text.alike e.name file = false

/-- A block without a signature file is uninvolved. -/
theorem uninvolved_of_orphanBlock {entries : List Entry} {e : Entry}
    (hblock : EntryName.isBlock e.name = true)
    (horphan : signatureFileBeside? entries e = none) : Uninvolved entries e where
  notManifest := by
    apply EntryName.not_alike_of_ending?_ne
    rw [EntryName.ending?_manifest]
    exact (EntryName.ending?_ne_of_isBlock hblock).1
  noPairedBlock := fun _ => horphan
  noSignatureFile := fun _ _ _ hfile => EntryName.not_alike_of_isBlock hblock hfile

/-- A signature file without a block is uninvolved. -/
theorem uninvolved_of_orphanFile {entries : List Entry} {e : Entry} {stem : String}
    (hname : Text.alike e.name (stem ++ ".SF") = true)
    (horphan : ∀ block ∈ signatureBlocks entries, ∀ file,
      EntryName.signatureFileOf? block.name = some file → Text.alike e.name file = false) :
    Uninvolved entries e := by
  have hfile : stem ++ ".SF" = String.ofList (stem.toList ++ ".SF".toList) := by
    rw [String.ofList_append, String.ofList_toList, String.ofList_toList]
  have hending : EntryName.ending? e.name = some "sf".toList := by
    rw [EntryName.ending?_eq_of_alike hname, hfile]
    exact EntryName.ending?_signatureFile _
  refine ⟨?_, ?_, horphan⟩
  · apply EntryName.not_alike_of_ending?_ne
    rw [hending, EntryName.ending?_manifest]
    decide
  · exact fun hblock => absurd hending (EntryName.ending?_ne_of_isBlock hblock).2

/-- A directory is uninvolved, whatever its name. -/
theorem uninvolved_of_isDirectory {entries : List Entry} {e : Entry}
    (hdirectory : e.isDirectory = true) : Uninvolved entries e where
  notManifest := by
    apply EntryName.not_alike_of_ending?_ne
    rw [EntryName.ending?_manifest]
    exact EntryName.ending?_ne_of_isDirectory hdirectory (by decide) (by decide)
  noPairedBlock := by
    intro hblock
    rw [EntryName.isBlock_of_isDirectory hdirectory] at hblock
    cases hblock
  noSignatureFile := by
    intro block _ file hfile
    apply EntryName.not_alike_of_ending?_ne
    rw [EntryName.ending?_of_signatureFileOf? hfile]
    exact EntryName.ending?_ne_of_isDirectory hdirectory (by decide) (by decide)

/-- What is not in the metadata directory is uninvolved. -/
theorem uninvolved_of_not_isMetadata {entries : List Entry} {e : Entry}
    (helsewhere : e.isMetadata = false) : Uninvolved entries e where
  notManifest := EntryName.not_alike_of_isMetadata helsewhere (by decide)
  noPairedBlock := by
    intro hblock
    have hmetadata : e.isMetadata = true := EntryName.isMetadata_of_isBlock hblock
    rw [helsewhere] at hmetadata
    cases hmetadata
  noSignatureFile := by
    intro block hblock file hfile
    exact EntryName.not_alike_of_isMetadata helsewhere
      (EntryName.isMetadata_of_signatureFileOf? (List.mem_filter.1 hblock).2 hfile)

/-- Content is uninvolved. -/
theorem uninvolved_of_isContent {entries : List Entry} {e : Entry}
    (hcontent : e.isContent = true) : Uninvolved entries e := by
  simp only [Entry.isContent, Bool.and_eq_true, Bool.not_eq_true'] at hcontent
  exact uninvolved_of_not_isMetadata hcontent.2

/-! ### An uninvolved entry more -/

section Insert

variable {before after : List Entry} {e : Entry}

/-- A lookup does not see an entry that is not alike. -/
theorem entryNamed?_insert {name : String} (h : Text.alike e.name name = false) :
    entryNamed? (before ++ e :: after) name = entryNamed? (before ++ after) name := by
  simp [entryNamed?, List.find?_append, h]

theorem signatureFileBeside?_insert {block : Entry}
    (h : ∀ file, EntryName.signatureFileOf? block.name = some file →
      Text.alike e.name file = false) :
    signatureFileBeside? (before ++ e :: after) block =
      signatureFileBeside? (before ++ after) block := by
  unfold signatureFileBeside?
  cases hfile : EntryName.signatureFileOf? block.name with
  | none => rfl
  | some file => exact entryNamed?_insert (h file hfile)

/-- An entry begins the same pair with an uninvolved entry more. -/
theorem pair?_insert (he : Uninvolved (before ++ after) e) {x : Entry}
    (hx : x ∈ before ++ after) :
    pair? (before ++ e :: after) x = pair? (before ++ after) x := by
  unfold pair?
  split
  next hblock =>
    have hmem : x ∈ signatureBlocks (before ++ after) := List.mem_filter.2 ⟨hx, hblock⟩
    rw [signatureFileBeside?_insert fun file hfile => he.noSignatureFile x hmem file hfile]
  next => rfl

/-- The entry itself begins none: if it is a block, it is not its own signature file. -/
theorem Uninvolved.pair?_eq_none (he : Uninvolved (before ++ after) e) :
    pair? (before ++ e :: after) e = none := by
  unfold pair?
  split
  next hblock =>
    rw [signatureFileBeside?_insert fun _ hfile => EntryName.not_alike_of_isBlock hblock hfile,
      he.noPairedBlock hblock, Option.map_none]
  next => rfl

theorem pairedBlocks_insert (he : Uninvolved (before ++ after) e) :
    pairedBlocks (before ++ e :: after) = pairedBlocks (before ++ after) := by
  have hsame : ∀ part : List Entry, (∀ x ∈ part, x ∈ before ++ after) →
      part.filterMap (pair? (before ++ e :: after)) =
        part.filterMap (pair? (before ++ after)) :=
    fun part hpart => List.filterMap_congr fun x hx => pair?_insert he (hpart x hx)
  have hbefore := hsame before fun x hx => List.mem_append_left _ hx
  have hafter := hsame after fun x hx => List.mem_append_right _ hx
  rw [pairedBlocks_eq_filterMap, pairedBlocks_eq_filterMap, List.filterMap_append,
    List.filterMap_append, List.filterMap_cons_none he.pair?_eq_none, hbefore, hafter]

/-- An archive loads its signatures as it does with an uninvolved entry more. -/
theorem verifySignatures_insert (he : Uninvolved (before ++ after) e) (limit : UInt64) :
    verifySignatures (before ++ e :: after) limit =
      verifySignatures (before ++ after) limit := by
  unfold verifySignatures
  rw [pairedBlocks_insert he, entryNamed?_insert he.notManifest]

/-- An entry that an archive does not involve, the archive without it does not either. -/
theorem Uninvolved.of_insert (he : Uninvolved (before ++ e :: after) e) :
    Uninvolved (before ++ after) e where
  notManifest := he.notManifest
  noPairedBlock := by
    intro hblock
    rw [← signatureFileBeside?_insert fun _ hfile =>
      EntryName.not_alike_of_isBlock hblock hfile]
    exact he.noPairedBlock hblock
  noSignatureFile := by
    intro block hblock
    obtain ⟨hmem, hname⟩ := List.mem_filter.1 hblock
    refine he.noSignatureFile block (List.mem_filter.2 ⟨?_, hname⟩)
    rcases List.mem_append.1 hmem with hmem | hmem
    · exact List.mem_append_left _ hmem
    · exact List.mem_append_right _ (List.mem_cons_of_mem e hmem)

/-- A name is all that counts for being uninvolved. -/
theorem Uninvolved.replace {entries : List Entry} (he : Uninvolved entries e)
    (payload : Payload) : Uninvolved entries { e with payload } where
  notManifest := he.notManifest
  noPairedBlock := he.noPairedBlock
  noSignatureFile := he.noSignatureFile

/-- Loading does not depend on the payload of an uninvolved entry. -/
theorem verifySignatures_replace (payload : Payload)
    (he : Uninvolved (before ++ e :: after) e) (limit : UInt64) :
    verifySignatures (before ++ { e with payload } :: after) limit =
      verifySignatures (before ++ e :: after) limit := by
  rw [verifySignatures_insert he.of_insert, verifySignatures_insert (he.of_insert.replace payload)]

/-- Loading does not depend on what content there is. -/
theorem verifySignatures_filter (front rest : List Entry) (limit : UInt64) :
    verifySignatures (front ++ rest.filter fun e => !e.isContent) limit =
      verifySignatures (front ++ rest) limit := by
  induction rest generalizing front with
  | nil => rfl
  | cons e rest ih =>
    cases hcontent : e.isContent with
    | true =>
      rw [verifySignatures_insert (uninvolved_of_isContent hcontent)]
      simpa [hcontent] using ih front
    | false => simpa [hcontent] using ih (front ++ [e])

end Insert

/-! ### Entries in another order -/

/-- No two entries have names that are alike. -/
def NamesDistinct (entries : List Entry) : Prop :=
  entries.Pairwise fun a b => Text.alike a.name b.name = false

instance (entries : List Entry) : Decidable (NamesDistinct entries) :=
  inferInstanceAs (Decidable (entries.Pairwise _))

/-- With distinct names a lookup finds the one entry that is alike. -/
theorem entryNamed?_eq_some_iff {entries : List Entry} (hdistinct : NamesDistinct entries)
    {name : String} {e : Entry} :
    entryNamed? entries name = some e ↔ e ∈ entries ∧ Text.alike e.name name = true := by
  constructor
  · intro hfound
    exact ⟨List.mem_of_find?_eq_some hfound, by simpa using List.find?_some hfound⟩
  · rintro ⟨hmem, halike⟩
    have hsome : (entryNamed? entries name).isSome = true :=
      List.find?_isSome.2 ⟨e, hmem, halike⟩
    obtain ⟨found, hfound⟩ := Option.isSome_iff_exists.1 hsome
    have hfoundAlike : Text.alike found.name name = true := by
      simpa using List.find?_some hfound
    have hboth : Text.alike found.name e.name = true :=
      Text.alike_trans hfoundAlike (Text.alike_comm _ _ ▸ halike)
    have hsymm : Std.Symm fun a b : Entry => Text.alike a.name b.name = false :=
      ⟨fun a b h => Text.alike_comm a.name b.name ▸ h⟩
    have hsame : found = e := by
      by_contra hne
      have hdiffer := List.Pairwise.forall hdistinct
        (List.mem_of_find?_eq_some hfound) hmem hne
      rw [hboth] at hdiffer
      cases hdiffer
    rw [hfound, hsame]

section Perm

variable {entries permuted : List Entry}

theorem NamesDistinct.perm (hdistinct : NamesDistinct entries) (hperm : entries.Perm permuted) :
    NamesDistinct permuted :=
  hperm.pairwise hdistinct fun {a b} h => Text.alike_comm a.name b.name ▸ h

/-- A lookup does not depend on the order of entries with distinct names. -/
theorem entryNamed?_perm (hdistinct : NamesDistinct entries) (hperm : entries.Perm permuted)
    (name : String) : entryNamed? permuted name = entryNamed? entries name := by
  apply Option.ext
  intro e
  rw [entryNamed?_eq_some_iff hdistinct, entryNamed?_eq_some_iff (hdistinct.perm hperm),
    hperm.mem_iff]

/-- Entries in another order make the same pairs in another order. -/
theorem pairedBlocks_perm (hdistinct : NamesDistinct entries) (hperm : entries.Perm permuted) :
    (pairedBlocks permuted).Perm (pairedBlocks entries) := by
  have hlookup : entryNamed? permuted = entryNamed? entries :=
    funext (entryNamed?_perm hdistinct hperm)
  have hpair : pair? permuted = pair? entries := by
    funext e
    rw [pair?, pair?, signatureFileBeside?, signatureFileBeside?, hlookup]
  rw [pairedBlocks_eq_filterMap, pairedBlocks_eq_filterMap, hpair]
  exact hperm.symm.filterMap _

end Perm

end JarSigners
