import JarSigners.Proofs.Base64
import JarSigners.Proofs.Manifest.RoundTrip
import JarSigners.Signing.Archive
import Mathlib.Data.List.Nodup

/-!
# Signature files of manifests that state digests

A manifest that was made by signing states one digest for each of some files, and the signature
file made from it states digests of the whole manifest, of its main section and of every other
section. Against a manifest that states the same digests of these files, it signs all of them;
otherwise the first file in its order whose digest is stated otherwise is refused
(`coveredNames_stating`, `coveredNames_differs`).
-/

set_option autoImplicit false

namespace JarSigners

/-- No two of these messages have one digest. -/
def Digest.CollisionFree (messages : List Bytes) : Prop :=
  ∀ a ∈ messages, ∀ b ∈ messages, Digest.sha256.digest a = Digest.sha256.digest b → a = b

instance (messages : List Bytes) : Decidable (Digest.CollisionFree messages) :=
  inferInstanceAs (Decidable (∀ a ∈ messages, ∀ b ∈ messages, _ → _))

theorem Digest.CollisionFree.mono {messages others : List Bytes} (h : CollisionFree messages)
    (hothers : ∀ m ∈ others, m ∈ messages) : CollisionFree others :=
  fun a ha b hb => h a (hothers a ha) b (hothers b hb)

/-- Messages with distinct digests have no collisions among them. -/
theorem Digest.collisionFree_of_nodup {messages : List Bytes}
    (h : (messages.map Digest.sha256.digest).Nodup) : CollisionFree messages :=
  fun _ ha _ hb hsame => List.inj_on_of_nodup_map h ha hb hsame

/-- Where names are distinct, the section of a name is the only one that has it. -/
theorem Manifest.section?_eq_some_iff {m : Manifest}
    (hdistinct : (m.sections.map Section.name?).Nodup) {name : String} {s : Section} :
    m.section? name = some s ↔ s ∈ m.sections ∧ s.name? = some name := by
  constructor
  · intro h
    exact ⟨List.mem_reverse.1 (List.mem_of_find?_eq_some h), by simpa using List.find?_some h⟩
  · rintro ⟨hs, hname⟩
    obtain ⟨found, hfound⟩ : ∃ found, m.section? name = some found := by
      rw [← Option.isSome_iff_exists, Manifest.section?, List.find?_isSome]
      exact ⟨s, List.mem_reverse.2 hs, decide_eq_true hname⟩
    have hmem : found ∈ m.sections := List.mem_reverse.1 (List.mem_of_find?_eq_some hfound)
    have hsame : found.name? = some name := by simpa using List.find?_some hfound
    rw [hfound, List.inj_on_of_nodup_map hdistinct hmem hs (hsame.trans hname.symm)]

namespace ManifestDraft

/-! ### Stated digests -/

theorem spells_stated_iff {written octets : Bytes} :
    Base64.spells (stated written) (Digest.Algorithm.sha256.digest octets) = true ↔
      Digest.sha256.digest written = Digest.sha256.digest octets :=
  Base64.spells_text_iff

theorem agreement_stated (written octets : Bytes) :
    Agreement.of [(.sha256, stated written)] octets =
      if Digest.sha256.digest written = Digest.sha256.digest octets then .agrees
      else .differs .sha256 := by
  by_cases h : Digest.sha256.digest written = Digest.sha256.digest octets
  · simp [Agreement.of, spells_stated_iff.2 h, h]
  · have hno : Base64.spells (stated written) (Digest.Algorithm.sha256.digest octets) = false := by
      rw [Bool.eq_false_iff, Ne, spells_stated_iff]
      exact h
    simp [Agreement.of, hno, h]

theorem stated_inj {a b : Bytes} :
    stated a = stated b ↔ Digest.sha256.digest a = Digest.sha256.digest b := by
  constructor
  · intro h
    have hspells := spells_stated_iff.2 (Eq.refl (Digest.sha256.digest a))
    rw [h] at hspells
    exact (spells_stated_iff.1 hspells).symm
  · intro h
    exact congrArg Base64.text h

theorem oneLine_stated (octets : Bytes) : Text.OneLine (stated octets) := by
  have hno : ∀ c ∈ (stated octets).toList, Text.isBlank c = false := by
    rw [stated, Digest.Algorithm.stated, Base64.text, String.toList_ofList]
    exact Base64.isBlank_of_mem_encode _
  have hcr : Text.isBlank '\r' = true := by decide
  have hlf : Text.isBlank '\n' = true := by decide
  exact ⟨fun h => by simp [hno _ h] at hcr, fun h => by simp [hno _ h] at hlf⟩

/-! ### Manifests that state digests of files -/

/-- The attributes by which a section states a digest of some octets. -/
def statement (octets : Bytes) : List Attribute :=
  [(digestKey, stated octets)]

/-- The manifest that states digests of some files, given with their contents. -/
def stating (files : List (String × Bytes)) : ManifestDraft where
  main := initial.main
  sections := files.map fun f => (f.1, statement f.2)

theorem stating_nil : stating [] = initial := rfl

/-- The section that states a digest of a file. -/
def stateSection (name : String) (content : Bytes) : Bytes :=
  encodeSection (withName name (statement content))

theorem mainOctets_stating (files : List (String × Bytes)) :
    (stating files).mainOctets = initial.mainOctets := rfl

theorem sectionOctets_stating (files : List (String × Bytes)) :
    (stating files).sectionOctets = files.map fun f => (f.1, stateSection f.1 f.2) := by
  simp only [sectionOctets, stating, List.map_map]
  rfl

/-- The signature file of such a manifest states digests in its sections likewise. -/
theorem sections_signatureFile (files : List (String × Bytes)) :
    (stating files).signatureFile.sections =
      files.map fun f => (f.1, statement (stateSection f.1 f.2)) := by
  rw [signatureFile, sectionOctets_stating, List.map_map]
  rfl

theorem writable_statement (octets : Bytes) : ∀ a ∈ statement octets, a.Writable := by
  have hkey : Attribute.Writable (digestKey, "") := by decide
  exact List.forall_mem_singleton.2 (hkey.withValue (oneLine_stated octets))

theorem writable_stating {files : List (String × Bytes)} (h : ∀ f ∈ files, Text.OneLine f.1) :
    (stating files).Writable where
  main_ne_nil := List.cons_ne_nil _ _
  unnamed := (by decide : ∀ a ∈ initial.main, Text.alike a.1 "Name" = false)
  main := (by decide : ∀ a ∈ initial.main, Attribute.Writable a)
  names := List.forall_mem_map.2 h
  sections := List.forall_mem_map.2 fun f _ => writable_statement f.2

theorem writable_signatureFile {files : List (String × Bytes)}
    (h : ∀ f ∈ files, Text.OneLine f.1) : (stating files).signatureFile.Writable where
  main_ne_nil := List.cons_ne_nil _ _
  unnamed := by
    simp only [signatureFile, List.forall_mem_cons]
    exact ⟨by decide, by decide, by decide, by decide, fun _ h => absurd h List.not_mem_nil⟩
  main := by
    have hmain : Attribute.Writable ("SHA-256-Digest-Manifest-Main-Attributes", "") := by decide
    have hwhole : Attribute.Writable ("SHA-256-Digest-Manifest", "") := by decide
    simp only [signatureFile, List.forall_mem_cons]
    exact ⟨by decide, hmain.withValue (oneLine_stated _), hwhole.withValue (oneLine_stated _),
      by decide, fun _ h => absurd h List.not_mem_nil⟩
  names := by
    rw [sections_signatureFile]
    exact List.forall_mem_map.2 h
  sections := by
    rw [sections_signatureFile]
    exact List.forall_mem_map.2 fun f _ => writable_statement _

/-- Equal sections state equal digests. -/
theorem stateSection_inj {name : String} (hname : Text.OneLine name) {a b : Bytes}
    (h : stateSection name a = stateSection name b) :
    Digest.sha256.digest a = Digest.sha256.digest b := by
  have hwritable : ∀ content, (stating [(name, content)]).Writable :=
    fun content => writable_stating (List.forall_mem_singleton.2 hname)
  have hencode : (stating [(name, a)]).encode = (stating [(name, b)]).encode := by
    simp only [encode, mainOctets_stating, sectionOctets_stating, List.map_cons, List.map_nil,
      List.flatMap_cons, List.flatMap_nil, h]
  have hread := congrArg ManifestDraft.read hencode
  rw [read_encode (hwritable a), read_encode (hwritable b)] at hread
  have hstated : stated a = stated b := by
    simpa [stating, statement] using hread
  exact stated_inj.1 hstated

/-! ### Sections by name -/

/-- The sections of a written manifest with the attributes and the octets of each. -/
theorem attributes_octets_manifest (d : ManifestDraft) :
    (d.manifest.sections.map fun s => (s.attributes, d.manifest.octets s)) =
      d.sections.map fun s => (withName s.1 s.2, encodeSection (withName s.1 s.2)) := by
  have hattributes : d.manifest.sections.map Section.attributes =
      d.sections.map fun s => withName s.1 s.2 := attributes_placed _ _
  have hoctets := sectionOctets_manifest d
  rw [← List.zip_map', hattributes, hoctets, sectionOctets, List.map_map, List.zip_map']
  rfl

theorem name?_of_attributes {s : Section} {name : String} {attributes : List Attribute}
    (h : s.attributes = withName name attributes) : s.name? = some name := by
  have hname : Section.name? ⟨withName name attributes, 0, 0⟩ = some name := name?_withName
  rw [Section.name?, Section.value?, h]
  exact hname

theorem names_manifest (d : ManifestDraft) :
    d.manifest.sections.map Section.name? = d.sections.map fun s => some s.1 := by
  have hattributes : d.manifest.sections.map Section.attributes =
      d.sections.map fun s => withName s.1 s.2 := attributes_placed _ _
  calc d.manifest.sections.map Section.name?
      = (d.manifest.sections.map Section.attributes).map fun a => Section.name? ⟨a, 0, 0⟩ := by
        rw [List.map_map]
        rfl
    _ = d.sections.map fun s => some s.1 := by
        rw [hattributes, List.map_map]
        exact List.map_congr_left fun s _ => name?_withName

/-- Where names are distinct, the section of a name is the one that was written for it. -/
theorem section?_manifest {d : ManifestDraft} (hdistinct : (d.sections.map Prod.fst).Nodup)
    {name : String} {attributes : List Attribute} (h : (name, attributes) ∈ d.sections) :
    ∃ s, d.manifest.section? name = some s ∧ s.attributes = withName name attributes ∧
      d.manifest.octets s = encodeSection (withName name attributes) := by
  have hnames : (d.manifest.sections.map Section.name?).Nodup := by
    have hsome := hdistinct.map (f := some) fun _ _ => Option.some.inj
    rw [List.map_map] at hsome
    rw [names_manifest]
    exact hsome
  have hmem := List.mem_map_of_mem (f := fun s : String × List Attribute =>
    (withName s.1 s.2, encodeSection (withName s.1 s.2))) h
  rw [← attributes_octets_manifest, List.mem_map] at hmem
  obtain ⟨s, hs, hpair⟩ := hmem
  have hattributes : s.attributes = withName name attributes := congrArg Prod.fst hpair
  exact ⟨s, (Manifest.section?_eq_some_iff hnames).2 ⟨hs, name?_of_attributes hattributes⟩,
    hattributes, congrArg Prod.snd hpair⟩

/-! ### Which digests are found -/

theorem digests_statement {s : Section} {name : String} {octets : Bytes}
    (h : s.attributes = withName name (statement octets)) :
    s.digests "-Digest" = [(.sha256, stated octets)] := by
  have hname : Digest.Algorithm.ofAttribute? "Name" "-Digest" = none := by decide
  have hdigest : Digest.Algorithm.ofAttribute? digestKey "-Digest" = some .sha256 := by
    decide
  simp [Section.digests, h, withName, statement, hname, hdigest]

theorem digests_whole (d : ManifestDraft) :
    d.signatureFile.manifest.main.digests "-Digest-Manifest" = [(.sha256, stated d.encode)] := by
  have hversion : Digest.Algorithm.ofAttribute? "Signature-Version" "-Digest-Manifest" = none := by
    decide
  have hmain : Digest.Algorithm.ofAttribute? "SHA-256-Digest-Manifest-Main-Attributes"
      "-Digest-Manifest" = none := by decide
  have hwhole : Digest.Algorithm.ofAttribute? "SHA-256-Digest-Manifest" "-Digest-Manifest" =
      some .sha256 := by decide
  have hcreator : Digest.Algorithm.ofAttribute? "Created-By" "-Digest-Manifest" = none := by
    decide
  simp [Section.digests, manifest, signatureFile, hversion, hmain, hwhole, hcreator]

theorem digests_main (d : ManifestDraft) :
    d.signatureFile.manifest.main.digests "-Digest-Manifest-Main-Attributes" =
      [(.sha256, stated d.mainOctets)] := by
  have hversion : Digest.Algorithm.ofAttribute? "Signature-Version"
      "-Digest-Manifest-Main-Attributes" = none := by decide
  have hmain : Digest.Algorithm.ofAttribute? "SHA-256-Digest-Manifest-Main-Attributes"
      "-Digest-Manifest-Main-Attributes" = some .sha256 := by decide
  have hwhole : Digest.Algorithm.ofAttribute? "SHA-256-Digest-Manifest"
      "-Digest-Manifest-Main-Attributes" = none := by decide
  have hcreator : Digest.Algorithm.ofAttribute? "Created-By"
      "-Digest-Manifest-Main-Attributes" = none := by decide
  simp [Section.digests, manifest, signatureFile, hversion, hmain, hwhole, hcreator]

/-! ### What the signature file signs -/

variable {old new : List (String × Bytes)} {name : String}

/-- The signature file made from the manifest that states digests of some files. -/
def signatureFileOver (name : String) (files : List (String × Bytes)) : SignatureFile :=
  ⟨name, (stating files).signatureFile.manifest⟩

theorem read_signatureFile (h : ∀ f ∈ old, Text.OneLine f.1) (name : String) :
    SignatureFile.read name (stating old).signatureFile.encode =
      .ok (signatureFileOver name old) := by
  rw [SignatureFile.read, read_manifest (writable_signatureFile h)]
  rfl

theorem mainAgreement_stating :
    (signatureFileOver name old).mainAgreement (stating new).manifest = .agrees := by
  rw [SignatureFile.mainAgreement, signatureFileOver, digests_main, mainOctets_manifest,
    agreement_stated, mainOctets_stating, mainOctets_stating, if_pos rfl]

theorem wholeAgreement_stating :
    (signatureFileOver name old).wholeAgreement (stating new).manifest = .agrees ↔
      Digest.sha256.digest (stating old).encode = Digest.sha256.digest (stating new).encode := by
  rw [SignatureFile.wholeAgreement, signatureFileOver, digests_whole, agreement_stated]
  split
  next h => exact iff_of_true rfl h
  next h => exact iff_of_false nofun h

/-- A signature file names the sections that were written into it. -/
theorem namedEntries_manifest (name : String) (d : ManifestDraft) :
    (SignatureFile.mk name d.manifest).namedEntries = d.sections.map Prod.fst := by
  have hfilterMap : (SignatureFile.mk name d.manifest).namedEntries =
      (d.manifest.sections.map Section.name?).filterMap id := by
    rw [List.filterMap_map]
    rfl
  rw [hfilterMap, names_manifest, List.filterMap_map]
  exact congrFun (List.filterMap_eq_map (f := Prod.fst)) d.sections

theorem namedEntries_stating :
    (signatureFileOver name old).namedEntries = old.map Prod.fst := by
  rw [signatureFileOver, namedEntries_manifest, sections_signatureFile, List.map_map]
  rfl

/-- The section of a file in a manifest that states digests of distinct files. -/
theorem sectionOctets?_stating (hdistinct : (new.map Prod.fst).Nodup) {entry : String}
    {content : Bytes} (hfile : (entry, content) ∈ new) :
    (stating new).manifest.sectionOctets? entry = some (stateSection entry content) := by
  have hsections : ((stating new).sections.map Prod.fst).Nodup := by
    rw [stating, List.map_map]
    exact hdistinct
  have hsection : (entry, statement content) ∈ (stating new).sections :=
    List.mem_map_of_mem (f := fun f : String × Bytes => (f.1, statement f.2)) hfile
  obtain ⟨found, hfound, -, hoctets⟩ := section?_manifest hsections hsection
  rw [Manifest.sectionOctets?, hfound, Option.map_some, hoctets, stateSection]

/-- The verdict on a file that a manifest has a section for. -/
theorem verdict_stating {f : SignatureFile} (hdistinct : (new.map Prod.fst).Nodup)
    {entry : String} {content octets : Bytes} (hfile : (entry, content) ∈ new) {s : Section}
    (hs : s.attributes = withName entry (statement octets)) :
    f.verdict (stating new).manifest s entry =
      if Digest.sha256.digest octets = Digest.sha256.digest (stateSection entry content) then
        .signed
      else .refused (.sectionDiffers f.name entry .sha256) := by
  simp only [SignatureFile.verdict, sectionOctets?_stating hdistinct hfile,
    digests_statement hs, agreement_stated]
  by_cases hsame : Digest.sha256.digest octets = Digest.sha256.digest (stateSection entry content)
  · simp only [hsame, if_true]
  · simp only [hsame, if_false]

/-- The verdicts on all files that a signature file names, where a manifest has them too. -/
theorem verdicts_stating (hdistinct : (new.map Prod.fst).Nodup) {content : String → Bytes}
    (hfiles : ∀ x ∈ old, (x.1, content x.1) ∈ new) :
    (signatureFileOver name old).verdicts (stating new).manifest = old.map fun x =>
      (x.1, if Digest.sha256.digest (stateSection x.1 x.2) =
          Digest.sha256.digest (stateSection x.1 (content x.1)) then .signed
        else .refused (.sectionDiffers name x.1 .sha256)) := by
  have hattributes : (stating old).signatureFile.manifest.sections.map Section.attributes =
      old.map fun x => withName x.1 (statement (stateSection x.1 x.2)) := by
    have hsections : (stating old).signatureFile.namedSections =
        old.map fun x => withName x.1 (statement (stateSection x.1 x.2)) := by
      rw [namedSections, sections_signatureFile, List.map_map]
      rfl
    exact (attributes_placed _ _).trans hsections
  -- a verdict depends on a section by its attributes only
  have hverdicts : (signatureFileOver name old).verdicts (stating new).manifest =
      ((stating old).signatureFile.manifest.sections.map Section.attributes).filterMap fun a =>
        (Section.name? ⟨a, 0, 0⟩).map fun entry => (entry,
          (signatureFileOver name old).verdict (stating new).manifest ⟨a, 0, 0⟩ entry) := by
    rw [List.filterMap_map]
    rfl
  rw [hverdicts, hattributes, List.filterMap_map, ← List.filterMap_eq_map]
  refine List.filterMap_congr fun x hx => ?_
  simp only [Function.comp_apply, name?_withName, Option.map_some]
  rw [verdict_stating hdistinct (hfiles x hx) rfl]
  rfl

/-- A manifest that states the same digests of the files is signed for all of them. -/
theorem coveredNames_stating (hdistinct : (new.map Prod.fst).Nodup) {content : String → Bytes}
    (hfiles : ∀ x ∈ old, (x.1, content x.1) ∈ new)
    (hsame : ∀ x ∈ old, Digest.sha256.digest x.2 = Digest.sha256.digest (content x.1)) :
    (signatureFileOver name old).coveredNames (stating new).manifest = .ok (old.map Prod.fst) := by
  have hverdicts : (signatureFileOver name old).verdicts (stating new).manifest =
      old.map fun x => (x.1, SignatureFile.Verdict.signed) := by
    rw [verdicts_stating hdistinct hfiles]
    refine List.map_congr_left fun x hx => ?_
    have hsection : stateSection x.1 x.2 = stateSection x.1 (content x.1) := by
      rw [stateSection, statement, stated_inj.2 (hsame x hx)]
      rfl
    rw [hsection, if_pos rfl]
  rw [SignatureFile.coveredNames]
  split
  · rw [namedEntries_stating]
  · simp only [mainAgreement_stating, hverdicts, SignatureFile.checkedEntries]
    have hnone : (old.map fun x => (x.1, SignatureFile.Verdict.signed)).findSome?
        (fun v => v.2.failure?) = none := by
      rw [List.findSome?_eq_none_iff]
      exact List.forall_mem_map.2 fun _ _ => rfl
    have hall : (old.map fun x => (x.1, SignatureFile.Verdict.signed)).filter
        (fun v => v.2 = .signed) = old.map fun x => (x.1, SignatureFile.Verdict.signed) := by
      rw [List.filter_eq_self]
      exact List.forall_mem_map.2 fun _ _ => rfl
    rw [hnone, hall, List.map_map]
    rfl

/-- The messages that are hashed when a manifest is signed, its main section aside. -/
def hashed (d : ManifestDraft) : List Bytes :=
  d.encode :: d.sectionOctets.map Prod.snd

theorem encode_mem_hashed (d : ManifestDraft) : d.encode ∈ d.hashed :=
  List.mem_cons_self

theorem stateSection_mem_hashed {files : List (String × Bytes)} {entry : String} {content : Bytes}
    (h : (entry, content) ∈ files) : stateSection entry content ∈ (stating files).hashed := by
  have hmem := List.mem_map_of_mem (f := fun y : String × Bytes => stateSection y.1 y.2) h
  rw [hashed, sectionOctets_stating, List.map_map]
  exact List.mem_cons_of_mem _ hmem

section Differs

variable {content : String → Bytes} {x : String × Bytes}
  (hlines : ∀ x ∈ new, Text.OneLine x.1)
  (hfree : Digest.CollisionFree ((stating old).hashed ++ (stating new).hashed))
  (hx : x ∈ old) (hfile : (x.1, content x.1) ∈ new)
  (hdiffers : Digest.sha256.digest x.2 ≠ Digest.sha256.digest (content x.1))

include hlines hfree hx hfile hdiffers

theorem digest_stateSection_ne : Digest.sha256.digest (stateSection x.1 x.2) ≠
    Digest.sha256.digest (stateSection x.1 (content x.1)) := by
  intro hdigest
  have hsection := hfree _ (List.mem_append_left _ (stateSection_mem_hashed hx)) _
    (List.mem_append_right _ (stateSection_mem_hashed hfile)) hdigest
  exact hdiffers (stateSection_inj (hlines _ hfile) hsection)

/-- Two manifests of which one states another digest of a file differ as a whole. -/
theorem wholeAgreement_ne (hlinesOld : ∀ y ∈ old, Text.OneLine y.1)
    (hdistinct : (new.map Prod.fst).Nodup) :
    (signatureFileOver name old).wholeAgreement (stating new).manifest ≠ .agrees := by
  rw [Ne, wholeAgreement_stating]
  intro hdigest
  have hencode := hfree _ (List.mem_append_left _ (encode_mem_hashed _)) _
    (List.mem_append_right _ (encode_mem_hashed _)) hdigest
  have hread := congrArg ManifestDraft.read hencode
  rw [read_encode (writable_stating hlinesOld), read_encode (writable_stating hlines)] at hread
  -- two drafts that are read alike have the same section for the file
  have hsection : (x.1, statement x.2) ∈ (stating new).sections := by
    rw [← hread]
    exact List.mem_map_of_mem (f := fun f : String × Bytes => (f.1, statement f.2)) hx
  obtain ⟨y, hy, heq⟩ := List.mem_map.1 hsection
  rw [Prod.mk.injEq] at heq
  obtain ⟨hname, hattributes⟩ := heq
  have hpair : y = (x.1, content x.1) := List.inj_on_of_nodup_map hdistinct hy hfile hname
  have hstated : stated y.2 = stated x.2 := by
    simpa [statement] using hattributes
  rw [hpair] at hstated
  exact hdiffers (stated_inj.1 hstated).symm

end Differs

/-- Against a manifest that states other digests, the first file in the order of the signature
file whose digest is another is refused. -/
theorem coveredNames_differs (hdistinct : (new.map Prod.fst).Nodup) {content : String → Bytes}
    (hlines : ∀ x ∈ new, Text.OneLine x.1)
    (hfree : Digest.CollisionFree ((stating old).hashed ++ (stating new).hashed))
    (hfiles : ∀ x ∈ old, (x.1, content x.1) ∈ new) {before after : List (String × Bytes)}
    {x : String × Bytes} (hsplit : old = before ++ x :: after)
    (hbefore : ∀ y ∈ before, Digest.sha256.digest y.2 = Digest.sha256.digest (content y.1))
    (hdiffers : Digest.sha256.digest x.2 ≠ Digest.sha256.digest (content x.1)) :
    (signatureFileOver name old).coveredNames (stating new).manifest =
      .error (.sectionDiffers name x.1 .sha256) := by
  have hlinesOld : ∀ y ∈ old, Text.OneLine y.1 := fun y hy => hlines (y.1, content y.1) (hfiles y hy)
  have hx : x ∈ old := by
    rw [hsplit]
    exact List.mem_append_right _ List.mem_cons_self
  have hwhole : (signatureFileOver name old).wholeAgreement (stating new).manifest ≠ .agrees :=
    wholeAgreement_ne hlines hfree hx (hfiles x hx) hdiffers hlinesOld hdistinct
  have hsection := digest_stateSection_ne hlines hfree hx (hfiles x hx) hdiffers
  have hfirst : (old.map fun y => (y.1,
      if Digest.sha256.digest (stateSection y.1 y.2) =
          Digest.sha256.digest (stateSection y.1 (content y.1)) then SignatureFile.Verdict.signed
        else .refused (.sectionDiffers name y.1 .sha256))).findSome? (fun v => v.2.failure?) =
      some (.sectionDiffers name x.1 .sha256) := by
    rw [hsplit, List.map_append, List.map_cons, List.findSome?_append, List.findSome?_cons,
      if_neg hsection]
    have hnone : ∀ y ∈ before, stateSection y.1 y.2 = stateSection y.1 (content y.1) := by
      intro y hy
      rw [stateSection, statement, stated_inj.2 (hbefore y hy)]
      rfl
    rw [List.findSome?_eq_none_iff.2]
    · rfl
    · refine List.forall_mem_map.2 fun y hy => ?_
      rw [hnone y hy, if_pos rfl]
      rfl
  rw [SignatureFile.coveredNames, if_neg hwhole]
  simp only [mainAgreement_stating, verdicts_stating hdistinct hfiles, SignatureFile.checkedEntries,
    hfirst]

end ManifestDraft

end JarSigners
