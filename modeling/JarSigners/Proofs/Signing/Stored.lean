import JarSigners.Proofs.Signing.Run
import JarSigners.Proofs.Zip.RoundTrip

/-!
# Signed archives fit into archive files

What a signature takes is bounded by the lengths of the names that it is over, since digests are
all of one length. So archives whose names, contents and signers stay small by far are stored, and
remain so while they are signed (`SignedDraft.stored`, `SignedDraft.stored_scanl`).
-/

set_option autoImplicit false

namespace JarSigners

/-! ### Lengths of what is written -/

theorem length_flatMap_le {α β : Type} {f : α → List β} {items : List α} {bound : Nat}
    (h : ∀ x ∈ items, (f x).length ≤ bound) :
    (items.flatMap f).length ≤ items.length * bound := by
  induction items with
  | nil => exact Nat.zero_le _
  | cons x items ih =>
    obtain ⟨hx, hitems⟩ := List.forall_mem_cons.1 h
    have hrest := ih hitems
    rw [List.flatMap_cons, List.length_append, List.length_cons, Nat.succ_mul]
    omega

theorem Base64.length_encode_le (bytes : Bytes) :
    (Base64.encode bytes).length ≤ 4 * (bytes.length / 3 + 1) := by
  fun_induction Base64.encode bytes with
  | case1 => simp
  | case2 a => simp
  | case3 a b => simp
  | case4 a b c rest ih =>
    simp only [List.length_cons] at ih ⊢
    omega

namespace ManifestDraft

/-- A digest is stated in at most 176 octets. -/
theorem length_stated_le (octets : Bytes) : (Text.utf8 (stated octets)).length ≤ 176 := by
  have hchars : (stated octets).toList.length ≤ 44 := by
    have hlength := Base64.length_encode_le (Digest.sha256.digest octets)
    rw [Digest.length_sha256] at hlength
    rw [stated, Digest.Algorithm.stated, Base64.text, String.toList_ofList]
    exact hlength
  have hutf8 : (Text.utf8 (stated octets)).length ≤ (stated octets).toList.length * 4 := by
    rw [Text.utf8_eq]
    refine length_flatMap_le fun c _ => ?_
    rw [String.length_utf8EncodeChar]
    exact Char.utf8Size_le_four c
  omega

theorem length_continuationLines_le (octets : Bytes) :
    ((continuationLines octets).flatMap (· ++ lineEnd)).length ≤ 4 * octets.length := by
  fun_induction continuationLines octets with
  | case1 => exact Nat.zero_le _
  | case2 b rest ih =>
    have hend : lineEnd.length = 2 := rfl
    have hwidth : lineWidth - 1 = 71 := rfl
    rw [hwidth] at ih ⊢
    rw [List.length_drop] at ih
    rw [List.flatMap_cons, List.length_append, List.length_append, hend, List.length_cons,
      List.length_take]
    rw [List.length_cons] at ih ⊢
    omega

/-- A header takes at most four times its octets, and a line end. -/
theorem length_encodeHeader_le (a : Attribute) :
    (encodeHeader a).length ≤ 4 * (headerOctets a).length + 2 := by
  have hrest := length_continuationLines_le ((headerOctets a).drop lineWidth)
  have hend : lineEnd.length = 2 := rfl
  rw [List.length_drop] at hrest
  rw [encodeHeader, headerLines, List.flatMap_cons, List.length_append, List.length_append, hend,
    List.length_take]
  refine Nat.le_trans (Nat.add_le_add_left hrest _) ?_
  omega

theorem length_headerOctets (a : Attribute) : (headerOctets a).length =
    (Text.utf8 a.1).length + 2 + (Text.utf8 a.2).length := by
  have hcolon : (Text.utf8 ": ").length = 2 := by decide +kernel
  rw [headerOctets, Text.utf8_append, Text.utf8_append, List.length_append, List.length_append,
    hcolon]

/-- A header with a short key that states a digest. -/
theorem length_encodeHeader_stated {key : String} (hkey : (Text.utf8 key).length ≤ 50)
    (octets : Bytes) : (encodeHeader (key, stated octets)).length ≤ 1000 := by
  have hstated := length_stated_le octets
  have hheader := length_encodeHeader_le (key, stated octets)
  rw [length_headerOctets] at hheader
  simp only at hheader
  omega

/-- The section of a name that is not too long. -/
theorem length_stateSection_le {name : String} (hname : (Text.utf8 name).length ≤ 1000)
    (content : Bytes) : (stateSection name content).length ≤ 6000 := by
  have hkey : (Text.utf8 digestKey).length ≤ 50 := by decide +kernel
  have hword : (Text.utf8 "Name").length = 4 := by decide +kernel
  have hend : lineEnd.length = 2 := rfl
  have hstated := length_encodeHeader_stated hkey content
  have hheader := length_encodeHeader_le ("Name", name)
  rw [length_headerOctets] at hheader
  simp only [hword] at hheader
  simp only [stateSection, encodeSection, withName, statement, List.flatMap_cons, List.flatMap_nil,
    List.append_nil, List.length_append, hend]
  omega

/-- What a signature file takes over a manifest whose names are not too long. -/
theorem length_encode_signatureFile_le {d : ManifestDraft}
    (hnames : ∀ t ∈ d.sections, (Text.utf8 t.1).length ≤ 1000) :
    d.signatureFile.encode.length ≤ 5000 + d.sections.length * 6000 := by
  have hmain : d.signatureFile.mainOctets.length ≤ 5000 := by
    have hversion : (encodeHeader ("Signature-Version", "1.0")).length ≤ 1000 := by decide +kernel
    have hcreator : (encodeHeader ("Created-By", creator)).length ≤ 1000 := by decide +kernel
    have hwhole : (Text.utf8 "SHA-256-Digest-Manifest").length ≤ 50 := by decide +kernel
    have hattributes : (Text.utf8 "SHA-256-Digest-Manifest-Main-Attributes").length ≤ 50 := by
      decide +kernel
    have hend : lineEnd.length = 2 := rfl
    have hstatedWhole := length_encodeHeader_stated hwhole d.encode
    have hstatedMain := length_encodeHeader_stated hattributes d.mainOctets
    simp only [mainOctets, signatureFile, encodeSection, List.flatMap_cons, List.flatMap_nil,
      List.append_nil, List.length_append, hend] at hstatedMain ⊢
    omega
  have hflat : d.signatureFile.sectionOctets.flatMap Prod.snd =
      d.sections.flatMap fun t => stateSection t.1 (encodeSection (withName t.1 t.2)) := by
    rw [sectionOctets, signatureFile, sectionOctets, List.map_map, List.map_map, List.flatMap_map]
    rfl
  have hsections : (d.sections.flatMap fun t =>
      stateSection t.1 (encodeSection (withName t.1 t.2))).length ≤ d.sections.length * 6000 :=
    length_flatMap_le fun t ht => length_stateSection_le (hnames t ht) _
  rw [encode, List.length_append, hflat]
  omega

variable {files : List (String × Bytes)}
  (hnames : ∀ f ∈ files, (Text.utf8 f.1).length ≤ 1000)

include hnames

/-- What a manifest takes that states digests of some files. -/
theorem length_encode_stating_le : (stating files).encode.length ≤ 1000 + files.length * 6000 := by
  have hmain : initial.mainOctets.length ≤ 1000 := by decide +kernel
  have hsections : (files.flatMap fun f => stateSection f.1 f.2).length ≤ files.length * 6000 :=
    length_flatMap_le fun f hf => length_stateSection_le (hnames f hf) _
  have hflat : (stating files).sectionOctets.flatMap Prod.snd =
      files.flatMap fun f => stateSection f.1 f.2 := by
    rw [sectionOctets_stating, List.flatMap_map]
  rw [encode, mainOctets_stating, List.length_append, hflat]
  omega

/-- What a signature file takes over some files. -/
theorem length_encode_signatureFile_stating_le :
    (stating files).signatureFile.encode.length ≤ 5000 + files.length * 6000 := by
  have hcount : (stating files).sections.length = files.length := List.length_map _
  have hsections : ∀ t ∈ (stating files).sections, (Text.utf8 t.1).length ≤ 1000 :=
    List.forall_mem_map.2 hnames
  rw [← hcount]
  exact length_encode_signatureFile_le hsections

end ManifestDraft

/-! ### Archives that stay small -/

namespace Zip

/-- Not too many entries, none of which takes too much, fit into an archive file. -/
theorem fits_of_small {entries : List DraftEntry} (hcount : entries.length < 2 ^ 11)
    (hnames : ∀ e ∈ entries, (Text.utf8 e.writtenName).length ≤ 1000)
    (hcontents : ∀ e ∈ entries, e.writtenContent.length ≤ 2 ^ 20) : Fits entries where
  each := fun e he =>
    ⟨(hnames e he).trans (by decide), (hcontents e he).trans (by decide)⟩
  count := by
    rw [tooMany]
    omega
  size := by
    have hrecords : (payloads entries).length ≤ entries.length * (2 ^ 20 + 1030) := by
      refine length_flatMap_le fun e he => ?_
      have hname := hnames e he
      have hcontent := hcontents e he
      rw [length_localRecord]
      omega
    rw [tooWide]
    omega

end Zip

theorem ArchiveDraft.length_names_le {draft : ArchiveDraft}
    (h : ∀ e ∈ draft, e.name.toList.length ≤ 250) :
    ∀ e ∈ draft, (Text.utf8 e.name).length ≤ 1000 :=
  fun e he => Text.length_utf8_le_of_short (h e he)

/-- A small archive is kept. -/
theorem ArchiveDraft.kept_of_small {draft : ArchiveDraft} (hnamed : ∀ e ∈ draft, e.WellNamed)
    (hdistinct : (draft.map DraftEntry.name).Nodup) (hcount : draft.length < 2 ^ 11)
    (hnames : ∀ e ∈ draft, (Text.utf8 e.name).length ≤ 1000)
    (hcontents : ∀ e ∈ draft, e.writtenContent.length ≤ 2 ^ 20) : draft.Kept where
  named := hnamed
  distinct := hdistinct
  stored := by
    have hwritten : ∀ e ∈ draft, e.writtenName = e.name := fun e he => (hnamed e he).writtenName_eq
    have hwrittenNames : ∀ e ∈ draft, (Text.utf8 e.writtenName).length ≤ 1000 := by
      intro e he
      rw [hwritten e he]
      exact hnames e he
    rw [← List.map_congr_left hwritten] at hdistinct
    have hfits := Zip.fits_of_small hcount hwrittenNames hcontents
    exact ⟨hfits.each, Zip.entries?_encode hfits hdistinct⟩

/-- The names of a signer's files and the signer's blocks are not too long. -/
structure Signer.Brief (s : Signer) : Prop where
  signatureFileName : (Text.utf8 s.signatureFileName).length ≤ 1000
  blockName : (Text.utf8 s.blockName).length ≤ 1000
  block : ∀ content, (s.block false content).length ≤ 2 ^ 20

namespace SignedDraft

/-- An archive that stays small by far, with room for more signatures. -/
structure Modest (room : Nat) (a : SignedDraft) : Prop where
  signatures : a.signatures.length + room ≤ 100
  signers : ∀ g ∈ a.signatures, g.signer.Brief
  rest : a.rest.length ≤ 100
  names : ∀ e ∈ a.rest, (Text.utf8 e.name).length ≤ 1000
  contents : ∀ e ∈ a.rest, e.writtenContent.length ≤ 2 ^ 20

variable {a : SignedDraft} {room : Nat}

theorem modest_created {entries : ArchiveDraft} (hroom : room ≤ 100) (hcount : entries.length ≤ 100)
    (hnames : ∀ e ∈ entries, (Text.utf8 e.name).length ≤ 1000)
    (hcontents : ∀ e ∈ entries, e.writtenContent.length ≤ 2 ^ 20) :
    (created entries).Modest room where
  signatures := by
    rw [created, List.length_nil]
    omega
  signers := fun _ h => absurd h List.not_mem_nil
  rest := hcount
  names := hnames
  contents := hcontents

theorem Modest.signedBy (h : a.Modest (room + 1)) {s : Signer} (hs : s.Brief) :
    (a.signedBy s).Modest room where
  signatures := by
    have hkept := List.length_filter_le
      (fun g : Signature => !Text.alike g.signer.keyName s.keyName) a.signatures
    have hroom := h.signatures
    rw [SignedDraft.signedBy, List.length_append, List.length_singleton]
    omega
  signers := by
    intro g hg
    rcases List.mem_append.1 hg with hg | hg
    · exact h.signers g (List.mem_of_mem_filter hg)
    · rw [List.mem_singleton.1 hg]
      exact hs
  rest := h.rest
  names := h.names
  contents := h.contents

theorem Modest.signedInTurn {signers : List Signer} (hsigners : ∀ s ∈ signers, s.Brief)
    (h : a.Modest (room + signers.length)) : (a.signedInTurn signers).Modest room := by
  induction signers generalizing a with
  | nil => exact h
  | cons s signers ih =>
    obtain ⟨hs, hothers⟩ := List.forall_mem_cons.1 hsigners
    have hnext : (a.signedBy s).Modest (room + signers.length) := h.signedBy hs
    exact ih hothers hnext

theorem Modest.updated (h : a.Modest room) {updates : List DraftEntry}
    (hcount : (a.rest.update updates).length ≤ 100)
    (hnames : ∀ e ∈ updates, (Text.utf8 e.name).length ≤ 1000)
    (hcontents : ∀ e ∈ updates, e.writtenContent.length ≤ 2 ^ 20) :
    (a.updated updates).Modest room where
  signatures := h.signatures
  signers := h.signers
  rest := hcount
  names := fun e he => (ArchiveDraft.mem_update he).elim (h.names e) (hnames e)
  contents := fun e he => (ArchiveDraft.mem_update he).elim (h.contents e) (hcontents e)

/-- The files that the manifest states are some of those that are there. -/
theorem Modest.names_of_sublist (h : a.Modest room) {files : List (String × Bytes)}
    (hfiles : (files.map Prod.fst).Sublist (a.rest.files.map Prod.fst)) :
    (∀ f ∈ files, (Text.utf8 f.1).length ≤ 1000) ∧ files.length ≤ 100 := by
  rw [ArchiveDraft.names_files] at hfiles
  have hall := hfiles.trans (List.filter_sublist.map _)
  constructor
  · intro f hf
    obtain ⟨e, he, hname⟩ := List.mem_map.1 (hall.subset (List.mem_map_of_mem (f := Prod.fst) hf))
    exact hname ▸ h.names e he
  · have hlength := hall.length_le
    rw [List.length_map, List.length_map] at hlength
    exact hlength.trans h.rest

theorem length_entries_le (signatures : List Signature) :
    (signatures.flatMap Signature.entries).length ≤ signatures.length * 2 :=
  length_flatMap_le fun _ _ => Nat.le_refl 2

theorem Modest.names_draft (hmodest : a.Modest room) :
    ∀ e ∈ a.draft, (Text.utf8 e.name).length ≤ 1000 := by
  have hmanifest : (Text.utf8 EntryName.manifest).length ≤ 1000 :=
    Text.length_utf8_le_of_short (by decide)
  have hfront : ∀ e ∈ a.front, (Text.utf8 e.name).length ≤ 1000 :=
    forall_mem_front hmanifest fun g hg =>
      ⟨(hmodest.signers g hg).signatureFileName, (hmodest.signers g hg).blockName⟩
  intro e he
  rcases List.mem_append.1 he with he | he
  · exact hfront e he
  · exact hmodest.names e he

theorem Modest.contents_draft (h : a.WellFormed) (hmodest : a.Modest room) :
    ∀ e ∈ a.draft, e.writtenContent.length ≤ 2 ^ 20 := by
  obtain ⟨hstated, hcount⟩ := hmodest.names_of_sublist h.stated.sublist
  have hmanifest : (ManifestDraft.stating a.stated).encode.length ≤ 2 ^ 20 := by
    have hlength := ManifestDraft.length_encode_stating_le hstated
    omega
  have hfront : ∀ e ∈ a.front, e.writtenContent.length ≤ 2 ^ 20 := by
    refine forall_mem_front hmanifest fun g hg => ⟨?_, (hmodest.signers g hg).block g.content⟩
    obtain ⟨hover, hcount⟩ := hmodest.names_of_sublist ((h.files g hg).trans h.stated).sublist
    have hlength := ManifestDraft.length_encode_signatureFile_stating_le hover
    change g.content.length ≤ 2 ^ 20
    rw [Signature.content]
    omega
  intro e he
  rcases List.mem_append.1 he with he | he
  · exact hfront e he
  · exact hmodest.contents e he

/-- A small archive is stored. -/
theorem stored (h : a.WellFormed) (hmodest : a.Modest room) : a.draft.Stored := by
  have hcount : a.draft.length < 2 ^ 11 := by
    have hsignatures := length_entries_le a.signatures
    have hroom := hmodest.signatures
    have hrest := hmodest.rest
    rw [draft, front, List.length_append, List.length_cons]
    omega
  exact (ArchiveDraft.kept_of_small (wellNamed_draft h) (nodup_draft h) hcount hmodest.names_draft
    (hmodest.contents_draft h)).stored

/-- It remains so while it is signed in turn, as long as there is room for the signatures. -/
theorem stored_scanl (h : a.WellFormed) {signers : List Signer}
    (hsigners : ∀ s ∈ signers, s.NamesFiles ∧ s.Brief)
    (hmodest : a.Modest (room + signers.length)) :
    ∀ draft ∈ signers.scanl ArchiveDraft.sign a.draft, draft.Stored := by
  induction signers generalizing a with
  | nil => exact List.forall_mem_singleton.2 (stored h hmodest)
  | cons s signers ih =>
    obtain ⟨⟨hs, hbrief⟩, hothers⟩ := List.forall_mem_cons.1 hsigners
    have hnext : (a.signedBy s).Modest (room + signers.length) := hmodest.signedBy hbrief
    rw [List.scanl_cons, List.forall_mem_cons, draft_sign h]
    exact ⟨stored h hmodest, ih (h.signedBy hs) hothers hnext⟩

end SignedDraft

end JarSigners
