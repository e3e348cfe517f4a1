import JarSigners.Proofs.Manifest.Agreement
import JarSigners.Proofs.Manifest.Redrafted
import JarSigners.Proofs.Signing.Commuting

/-!
# The digests that are found after signing

Whatever manifest an archive has, signing states in it the SHA-256 digest of each file. The section
that is then found under the name of a file is the one in which the digest was stated if the name is
not repeated; digests under other keys are left as they were (`signing_refreshes_the_digests`).
-/

set_option autoImplicit false

namespace JarSigners

open Digest (Algorithm)

/-- An attribute of a section that is not its first with this key. -/
def Section.HasButFirst (t : Section) (key : String) (entry : Attribute) : Prop :=
  ∃ before after, t.attributes = before ++ entry :: after ∧
    (Text.alike entry.1 key = false ∨ ∃ earlier ∈ before, Text.alike earlier.1 key = true)

namespace ManifestDraft

open Manifest

/-! ### The section of a file -/

/-- Stating digests repeats no name. -/
theorem count_names_refreshed_le (d : ManifestDraft) (files : List (String × Bytes))
    (name : String) : (d.refreshed files).names.count name ≤ max 1 (d.names.count name) := by
  induction files generalizing d with
  | nil => exact Nat.le_max_right _ _
  | cons f files ih =>
    have hset := count_names_set_le d f.1 digestKey (stated f.2) name
    have hrest := ih (d.set f.1 digestKey (stated f.2))
    rw [refreshed_cons]
    omega

/-- A digest that is stated of some contents matches them. -/
theorem matches_stated {entry : Attribute} {content : Bytes}
    (hkey : Text.alike entry.1 digestKey = true) (hvalue : entry.2 = stated content) :
    Attribute.Matches entry "-Digest" content := by
  intro a hlabel
  have hsha256 : Algorithm.sha256.Labels "-Digest" entry.1 := by
    have hjoined : "SHA-256" ++ "-Digest" = digestKey := by decide
    exact ⟨"SHA-256", by decide, hjoined ▸ hkey⟩
  rw [hlabel.unique hsha256, hvalue]
  exact spells_stated_iff.2 rfl

/-- A name states no digest. -/
theorem matches_name (name : String) (content : Bytes) :
    Attribute.Matches ("Name", name) "-Digest" content := by
  intro a hlabel
  have hnone : Algorithm.ofAttribute? "Name" "-Digest" = none := by decide
  rw [Algorithm.ofAttribute?_eq_some_iff.2 hlabel] at hnone
  cases hnone

section Found

variable {found : Section} {name value : String} {base : List Attribute} {content : Bytes}

/-- A digest that was set is the one that is looked up. -/
theorem value?_setAttribute
    (h : found.attributes = withName name (setAttribute digestKey value base)) :
    found.value? digestKey = some value := by
  have hname : ¬ Text.alike "Name" digestKey = true := by decide
  rw [Section.value?, h, withName, List.find?_cons_of_neg (by exact hname)]
  exact find?_setAttribute digestKey value base

/-- What a section states besides the digest that was set, it stated before. -/
theorem matches_or_mem {entry : Attribute}
    (h : found.attributes = withName name (setAttribute digestKey (stated content) base))
    (hentry : entry ∈ found.attributes) :
    Attribute.Matches entry "-Digest" content ∨
      ∃ before after, base = before ++ entry :: after ∧
        (Text.alike entry.1 digestKey = false ∨
          ∃ earlier ∈ before, Text.alike earlier.1 digestKey = true) := by
  rw [h, withName, List.mem_cons] at hentry
  rcases hentry with rfl | hentry
  · exact Or.inl (matches_name name content)
  · exact (mem_setAttribute hentry).imp_left fun hset => matches_stated hset.1 hset.2

/-- What is stated before in a draft was stated where it was read from. -/
theorem matches_or_hasButFirst {octets : Bytes} {all : List Section} {entry : Attribute}
    (honce : (assembled octets all).NamesOnce name)
    (h : found.attributes = withName name (setAttribute digestKey (stated content)
      (((drafted (all.map Section.attributes)).attributesOf? name).getD [])))
    (hentry : entry ∈ found.attributes) :
    Attribute.Matches entry "-Digest" content ∨
      ∃ t, (assembled octets all).section? name = some t ∧ t.HasButFirst digestKey entry := by
  refine (matches_or_mem h hentry).imp_right ?_
  rintro ⟨before, after, hsplit, hother⟩
  cases hbase : (drafted (all.map Section.attributes)).attributesOf? name with
  | none => simp [hbase] at hsplit
  | some rest =>
    rw [hbase, Option.getD_some] at hsplit
    obtain ⟨t, key, ht, hattributes⟩ := exists_section?_of_attributesOf? honce hbase
    refine ⟨t, ht, (key, name) :: before, after, by rw [hattributes, hsplit]; rfl, ?_⟩
    exact hother.imp_right fun ⟨earlier, hmem, halike⟩ =>
      ⟨earlier, List.mem_cons_of_mem _ hmem, halike⟩

end Found

end ManifestDraft

/-! ### The manifest of a signed archive -/

namespace ArchiveDraft

open Manifest ManifestDraft

variable {draft : ArchiveDraft}

/-- The files of an archive that can be written have distinct names. -/
theorem nodup_names_of_written (h : (draft.map DraftEntry.writtenName).Nodup) :
    (draft.files.map Prod.fst).Nodup := by
  have hsame : (draft.filter fun e => e.content.isSome).map DraftEntry.name =
      (draft.filter fun e => e.content.isSome).map DraftEntry.writtenName := by
    refine List.map_congr_left fun e he => ?_
    obtain ⟨content, hcontent⟩ := Option.isSome_iff_exists.1 (List.mem_filter.1 he).2
    rw [DraftEntry.writtenName, hcontent]
  rw [names_files, hsame]
  exact h.sublist (List.filter_sublist.map _)

theorem nodup_names_of_written_sign {s : Signer}
    (h : ((draft.sign s).map DraftEntry.writtenName).Nodup) :
    ((files draft.unsignedPart).map Prod.fst).Nodup := by
  refine nodup_names_of_written (h.sublist (List.Sublist.map _ ?_))
  rw [sign_eq]
  exact List.sublist_append_right _ _

/-- A reader finds the manifest that signing wrote. -/
theorem entryNamed?_sign (draft : ArchiveDraft) (s : Signer) :
    entryNamed? ((draft.sign s).map DraftEntry.entry) EntryName.manifest =
      some ⟨EntryName.manifest, .octets draft.currentManifest.encode true⟩ := by
  rw [sign_eq, List.cons_append, List.map_cons, entryNamed?]
  exact List.find?_cons_of_pos (Text.alike_refl EntryName.manifest)

section CurrentManifest

variable {name : String} {octets : Bytes} {all : List Section}
  (hmanifest : draft.find? (fun e => EntryName.isManifest e.name) = some (.file name octets))
  (hpaired : ReturnsPaired octets)
  (hall : (paragraphs octets).mapM Paragraph.section? = .ok all)

include hmanifest hpaired hall

/-- The new manifest is made of the sections that strict reading finds in the old one. -/
theorem currentManifest_eq_refreshed :
    draft.currentManifest =
      (drafted (all.map Section.attributes)).refreshed (files draft.unsignedPart) := by
  have hread : draft.manifest = ManifestDraft.read octets := by
    rw [ArchiveDraft.manifest, hmanifest]
    rfl
  rw [currentManifest, hread, foldl_stateDigest, read_eq_drafted hpaired hall]

/-- All that is kept of the old manifest may be written, and so may the digests. -/
theorem currentManifest_printable (hlines : ∀ e ∈ draft, Text.OneLine e.name) :
    draft.currentManifest.Printable := by
  rw [currentManifest_eq_refreshed hmanifest hpaired hall]
  exact (printable_drafted (List.forall_mem_map.2 (writable_of_mapM hall))).refreshed
    (oneLine_unsignedPart fun e he _ _ _ => hlines e he)

/-- A name that the old manifest does not repeat is not repeated in the new one. -/
theorem count_names_currentManifest_le {other : String}
    (honce : (assembled octets all).NamesOnce other) :
    draft.currentManifest.names.count other ≤ 1 := by
  rw [currentManifest_eq_refreshed hmanifest hpaired hall]
  refine (count_names_refreshed_le _ _ other).trans (Nat.max_le.2 ⟨Nat.le_refl 1, ?_⟩)
  exact (count_names_drafted_le octets all other).trans honce

end CurrentManifest

end ArchiveDraft

/-! ### An archive with one file -/

/-- An archive with a manifest of these octets and one file. -/
def ArchiveDraft.oneFile (octets : Bytes) : ArchiveDraft :=
  [.file EntryName.manifest octets, .file "a.txt" (Bytes.ofAscii "a")]

namespace Manifest

/-- Two digests that are stale, of which the one under another key is left as it is. -/
def staleDigests : Bytes :=
  writtenLines (["Manifest-Version: 1.0", "", "Name: a.txt", "sha-256-digest: stale",
    "SHA-1-Digest: stale", ""].map Bytes.ofAscii)

/-- Two sections of one name, of which the first is changed and the second is found. -/
def repeatedName : Bytes :=
  writtenLines (["Manifest-Version: 1.0", "", "Name: a.txt", "SHA-256-Digest: stale", "",
    "Name: a.txt", "SHA-256-Digest: stale", ""].map Bytes.ofAscii)

/-- A carriage return that ends a line by itself, right where what is taken for one line is cut. -/
def loneReturn : Bytes :=
  Bytes.ofAscii "X: " ++ List.replicate 68 97 ++ Bytes.ofAscii "\rY: b\r\n\r\n"

end Manifest

theorem ArchiveDraft.kept_oneFile {octets : Bytes} (h : octets.length ≤ 2 ^ 20) :
    (oneFile octets).Kept := by
  refine kept_of_small ?_ ?_ ?_ ?_ ?_
  · exact List.forall_mem_cons.2 ⟨DraftEntry.wellNamed_file (by decide) _,
      List.forall_mem_singleton.2 (DraftEntry.wellNamed_file (by decide) _)⟩
  · exact (by decide : [EntryName.manifest, "a.txt"].Nodup)
  · exact (by decide : 2 < 2 ^ 11)
  · exact List.forall_mem_cons.2
      ⟨Text.length_utf8_le_of_short (by decide : EntryName.manifest.toList.length ≤ 250),
        List.forall_mem_singleton.2 (Text.length_utf8_le_of_short (by decide))⟩
  · exact List.forall_mem_cons.2 ⟨h, List.forall_mem_singleton.2 (by decide)⟩

/-- Signing makes none of these manifests too large. -/
theorem Manifest.fits_sign_stale : ∀ octets ∈ [staleDigests, repeatedName, loneReturn],
    octets.length ≤ 2 ^ 20 ∧ ∀ e ∈ (ArchiveDraft.oneFile octets).sign .first, e.Fits := by
  have hsmall : ∀ octets ∈ [staleDigests, repeatedName, loneReturn], octets.length ≤ 2 ^ 20 ∧
      (ArchiveDraft.oneFile octets).currentManifest.encode.length ≤ DraftEntry.maxContent ∧
      (∀ t ∈ (ArchiveDraft.oneFile octets).currentManifest.sections, t.1.toList.length ≤ 250) ∧
      (ArchiveDraft.oneFile octets).currentManifest.sections.length ≤ 100 := by
    decide +kernel
  intro octets hoctets
  obtain ⟨hlength, hmanifest, hnames, hcount⟩ := hsmall octets hoctets
  exact ⟨hlength, ArchiveDraft.fits_sign (ArchiveDraft.kept_oneFile hlength).stored.fits
    Signer.brief_first hmanifest hnames hcount⟩

theorem ArchiveDraft.oneLine_oneFile (octets : Bytes) :
    ∀ e ∈ oneFile octets, Text.OneLine e.name :=
  List.forall_mem_cons.2 ⟨(by decide : Text.OneLine EntryName.manifest),
    List.forall_mem_singleton.2 (by decide : Text.OneLine "a.txt")⟩

/-! ### What signing makes of the digests -/

/-- Signing refreshes the digests that a reader looks at. An archive has a manifest that is
accepted, in which a line feed or the end stands behind each carriage return, and names of one line.
If it is signed, the manifest a reader finds in it is accepted again, and each file that is neither
the manifest nor of a signature is still there. If no more than one section had its name, its
section now states the SHA-256 digest of its contents. Whatever digest the section states matches
the contents, but for those it stated already besides its first SHA-256 digest. -/
theorem signing_refreshes_the_digests {file : FileState} {draft : ArchiveDraft} {s : Signer}
    {name : String} {octets : Bytes} {old : Manifest} (hdraft : file.draft = .ok draft)
    (hmanifest : draft.find? (fun e => EntryName.isManifest e.name) = some (.file name octets))
    (hread : Manifest.read name octets = .ok old) (hpaired : Manifest.ReturnsPaired octets)
    (hlines : ∀ e ∈ draft, Text.OneLine e.name) (hdone : (file.sign s).result = .ok ()) :
    (file.sign s).file = .octets (Zip.encode (draft.sign s)) ∧
    ∃ written new,
      entryNamed? ((draft.sign s).map DraftEntry.entry) EntryName.manifest =
        some ⟨EntryName.manifest, .octets written true⟩ ∧
      Manifest.read EntryName.manifest written = .ok new ∧
      ∀ e ∈ draft, ∀ content, e.content = some content →
        EntryName.isManifest e.name = false → EntryName.belongsToSignature e.name = false →
        e ∈ draft.sign s ∧
        (old.NamesOnce e.name → ∃ found, new.section? e.name = some found ∧
          found.value? ManifestDraft.digestKey = some (ManifestDraft.stated content) ∧
          ∀ entry ∈ found.attributes, Attribute.Matches entry "-Digest" content ∨
            ∃ t, old.section? e.name = some t ∧
              t.HasButFirst ManifestDraft.digestKey entry) := by
  obtain ⟨all, hall, -, rfl⟩ := Manifest.ofBytes_eq_ok_iff.1 (Manifest.read_eq_ok_iff.1 hread)
  rw [FileState.sign, FileState.changed, hdraft] at hdone ⊢
  have hwritten := ArchiveDraft.write_of_done hdone
  obtain ⟨hdistinct, -⟩ := ArchiveDraft.write_done_iff.1 hdone
  have hprintable := ArchiveDraft.currentManifest_printable hmanifest hpaired hall hlines
  obtain ⟨new, hnew, hlookup⟩ := hprintable.exists_section?_encode
  refine ⟨congrArg FileChange.file hwritten, _, new, ArchiveDraft.entryNamed?_sign draft s,
    Manifest.read_eq_ok_iff.2 hnew, fun e he content hcontent hordinary hunsigned => ?_⟩
  have hpart : e ∈ draft.unsignedPart :=
    List.mem_filter.2 ⟨he, by simp [hordinary, hunsigned]⟩
  have hfile : (e.name, content) ∈ ArchiveDraft.files draft.unsignedPart :=
    ArchiveDraft.mem_files_iff.2 (by rwa [DraftEntry.file, ← hcontent])
  refine ⟨by rw [ArchiveDraft.sign_eq]; exact List.mem_append_right _ hpart, fun honce => ?_⟩
  -- The digest was stated in the first section of the name, and this is the one that is found.
  have hstated := ManifestDraft.attributesOf?_refreshed
    (d := ManifestDraft.drafted (all.map Section.attributes))
    (ArchiveDraft.nodup_names_of_written_sign hdistinct) hfile
  rw [← ArchiveDraft.currentManifest_eq_refreshed hmanifest hpaired hall] at hstated
  have hcount := ArchiveDraft.count_names_currentManifest_le hmanifest hpaired hall honce
  obtain ⟨found, hfound, hattributes⟩ :=
    hlookup (e.name, _) (ManifestDraft.last_section_of_attributesOf? hcount hstated)
  exact ⟨found, hfound, ManifestDraft.value?_setAttribute hattributes,
    fun _ hentry => ManifestDraft.matches_or_hasButFirst honce hattributes hentry⟩

/-- A stale SHA-256 digest is refreshed, and what else is found stale was so before. -/
theorem stale_digest_is_refreshed :
    let draft := ArchiveDraft.oneFile Manifest.staleDigests
    let file := FileState.octets (Zip.encode draft)
    let content := Bytes.ofAscii "a"
    ∃ old, file.draft = .ok draft ∧
      draft.find? (fun e => EntryName.isManifest e.name) =
        some (.file EntryName.manifest Manifest.staleDigests) ∧
      Manifest.read EntryName.manifest Manifest.staleDigests = .ok old ∧
      Manifest.ReturnsPaired Manifest.staleDigests ∧ (∀ e ∈ draft, Text.OneLine e.name) ∧
      (file.sign .first).result = .ok () ∧ old.NamesOnce "a.txt" ∧
      ∃ written new found,
        entryNamed? ((draft.sign .first).map DraftEntry.entry) EntryName.manifest =
          some ⟨EntryName.manifest, .octets written true⟩ ∧
        Manifest.read EntryName.manifest written = .ok new ∧
        new.section? "a.txt" = some found ∧
        found.value? ManifestDraft.digestKey = some (ManifestDraft.stated content) ∧
        ∀ entry ∈ found.attributes, Attribute.Matches entry "-Digest" content ∨
          ∃ t, old.section? "a.txt" = some t ∧ t.HasButFirst ManifestDraft.digestKey entry := by
  intro draft file content
  have hkept : draft.Kept := ArchiveDraft.kept_oneFile (by decide)
  have hdraft : file.draft = .ok draft := hkept.stored.draft_octets hkept.named
  have hmanifest : draft.find? (fun e => EntryName.isManifest e.name) =
      some (.file EntryName.manifest Manifest.staleDigests) :=
    List.find?_cons_of_pos SignedDraft.isManifest_manifest
  have haccepted : (Manifest.ofBytes Manifest.staleDigests).toOption.any
      (fun old => old.NamesOnce "a.txt") = true := by decide +kernel
  obtain ⟨old, hold, honce⟩ := (Option.any_eq_true _ _).1 haccepted
  have hread : Manifest.read EntryName.manifest Manifest.staleDigests = .ok old :=
    Manifest.read_eq_ok_iff.2 (Steps.toOption_eq_some_iff.1 hold)
  have hpaired : Manifest.ReturnsPaired Manifest.staleDigests := by decide +kernel
  have hlines : ∀ e ∈ draft, Text.OneLine e.name := ArchiveDraft.oneLine_oneFile _
  have hdone : (file.sign .first).result = .ok () := by
    rw [hkept.sign_file (by decide) (Manifest.fits_sign_stale _ List.mem_cons_self).2]
  obtain ⟨-, written, new, hfound, hnew, hfiles⟩ :=
    signing_refreshes_the_digests hdraft hmanifest hread hpaired hlines hdone
  have hfile : DraftEntry.file "a.txt" content ∈ draft := List.mem_cons_of_mem _ List.mem_cons_self
  obtain ⟨-, hsection⟩ := hfiles _ hfile content rfl (by decide) (by decide)
  have hnames : old.NamesOnce "a.txt" := of_decide_eq_true honce
  obtain ⟨found, hsection, hvalue, hothers⟩ := hsection hnames
  exact ⟨old, hdraft, hmanifest, hread, hpaired, hlines, hdone, hnames, written, new, found, hfound,
    hnew, hsection, hvalue, hothers⟩

/-! ### Manifests that go stale -/

/-- Some octets are a manifest that is accepted and that holds each file of an archive to its
contents, by its SHA-256 digest and whatever else it states. -/
def ArchiveDraft.Restated (draft : ArchiveDraft) (octets : Bytes) : Prop :=
  ∃ m, Manifest.ofBytes octets = .ok m ∧ ∀ f ∈ files draft.unsignedPart,
    ∃ found, m.section? f.1 = some found ∧
      found.value? ManifestDraft.digestKey = some (ManifestDraft.stated f.2) ∧
      found.Tolerates "-Digest" f.2

/-- An archive with a manifest that is accepted and with names of one line is signed, and what it
then has for a manifest does not hold its files to their contents. -/
def ArchiveDraft.GoesStale (draft : ArchiveDraft) : Prop :=
  let file := FileState.octets (Zip.encode draft)
  file.draft = .ok draft ∧
  (∃ name octets old,
    draft.find? (fun e => EntryName.isManifest e.name) = some (.file name octets) ∧
    Manifest.read name octets = .ok old) ∧
  (∀ e ∈ draft, Text.OneLine e.name) ∧
  file.sign .first = ⟨.octets (Zip.encode (draft.sign .first)), .ok ()⟩ ∧
  ∃ written, entryNamed? ((draft.sign .first).map DraftEntry.entry) EntryName.manifest =
    some ⟨EntryName.manifest, .octets written true⟩ ∧ ¬ draft.Restated written

namespace ArchiveDraft

variable {octets : Bytes}

theorem goesStale_oneFile (hlength : octets.length ≤ 2 ^ 20)
    (hfits : ∀ e ∈ (oneFile octets).sign .first, e.Fits)
    (hread : (Manifest.ofBytes octets).toOption.isSome = true)
    (hstale : ¬ (oneFile octets).Restated (oneFile octets).currentManifest.encode) :
    (oneFile octets).GoesStale := by
  obtain ⟨old, hold⟩ := Option.isSome_iff_exists.1 hread
  have hkept := kept_oneFile hlength
  exact ⟨hkept.stored.draft_octets hkept.named,
    ⟨EntryName.manifest, octets, old, List.find?_cons_of_pos SignedDraft.isManifest_manifest,
      Manifest.read_eq_ok_iff.2 (Steps.toOption_eq_some_iff.1 hold)⟩,
    oneLine_oneFile octets, hkept.sign_file (by decide) hfits, _, entryNamed?_sign _ _, hstale⟩

/-- A digest that does not match is found if it is in the last section of the name. -/
theorem goesStale_of_last {entry : Attribute} (hlength : octets.length ≤ 2 ^ 20)
    (hfits : ∀ e ∈ (oneFile octets).sign .first, e.Fits)
    (hread : (Manifest.ofBytes octets).toOption.isSome = true)
    (hpaired : Manifest.ReturnsPaired octets)
    (hlast : ((oneFile octets).currentManifest.sections.reverse.find? fun t => t.1 = "a.txt").any
      (fun t => t.2.contains entry) = true)
    (hstale : ¬ Attribute.Matches entry "-Digest" (Bytes.ofAscii "a")) :
    (oneFile octets).GoesStale := by
  refine goesStale_oneFile hlength hfits hread ?_
  rintro ⟨m, hm, hfiles⟩
  obtain ⟨old, hold⟩ := Option.isSome_iff_exists.1 hread
  obtain ⟨all, hall, -⟩ := Manifest.ofBytes_eq_ok_iff.1 (Steps.toOption_eq_some_iff.1 hold)
  have hprintable : (oneFile octets).currentManifest.Printable := currentManifest_printable
    (List.find?_cons_of_pos SignedDraft.isManifest_manifest) hpaired hall (oneLine_oneFile octets)
  obtain ⟨new, hnew, hlookup⟩ := hprintable.exists_section?_encode
  obtain rfl := Except.ok.inj (hnew.symm.trans hm)
  obtain ⟨⟨last, attributes⟩, hlast, hentry⟩ := (Option.any_eq_true _ _).1 hlast
  obtain rfl : last = "a.txt" := by simpa using List.find?_some hlast
  obtain ⟨found, hfound, hattributes⟩ := hlookup ("a.txt", attributes) hlast
  have hfile : ("a.txt", Bytes.ofAscii "a") ∈ files (oneFile octets).unsignedPart :=
    mem_files_iff.2 (List.mem_filter.2 ⟨List.mem_cons_of_mem _ List.mem_cons_self, by decide⟩)
  obtain ⟨_, hsame, -, htolerates⟩ := hfiles _ hfile
  obtain rfl := Option.some.inj (hfound.symm.trans hsame)
  refine hstale (htolerates entry ?_)
  rw [hattributes]
  exact List.mem_cons_of_mem _ (List.contains_iff_mem.1 hentry)

end ArchiveDraft

/-- Not every manifest that is accepted holds files to their contents after signing. One keeps a
stale digest of another kind, in one a stale SHA-256 digest is found, and one is not accepted any
more. -/
theorem some_manifests_go_stale :
    (ArchiveDraft.oneFile Manifest.staleDigests).GoesStale ∧
    (ArchiveDraft.oneFile Manifest.repeatedName).GoesStale ∧
    (ArchiveDraft.oneFile Manifest.loneReturn).GoesStale := by
  obtain ⟨⟨hdigests, hdigestsFit⟩, ⟨hname, hnameFit⟩, hreturn, hreturnFit⟩ :
      (_ ∧ _) ∧ (_ ∧ _) ∧ _ ∧ _ := by
    simpa using Manifest.fits_sign_stale
  refine ⟨?_, ?_, ArchiveDraft.goesStale_oneFile hreturn hreturnFit (by decide +kernel) ?_⟩
  · have hstale : ¬ Attribute.Matches ("SHA-1-Digest", "stale") "-Digest" (Bytes.ofAscii "a") :=
      Attribute.any_objects_iff.1 (by decide)
    exact ArchiveDraft.goesStale_of_last hdigests hdigestsFit (by decide +kernel) (by decide +kernel)
      (by decide +kernel) hstale
  · have hstale : ¬ Attribute.Matches ("SHA-256-Digest", "stale") "-Digest" (Bytes.ofAscii "a") :=
      Attribute.any_objects_iff.1 (by decide)
    exact ArchiveDraft.goesStale_of_last hname hnameFit (by decide +kernel) (by decide +kernel)
      (by decide +kernel) hstale
  · rintro ⟨m, hm, -⟩
    have hrefused : (Manifest.ofBytes
        (ArchiveDraft.oneFile Manifest.loneReturn).currentManifest.encode).toOption = none := by
      decide +kernel
    rw [hm] at hrefused
    cases hrefused

end JarSigners
