import JarSigners.Proofs.Signing.SignatureFile
import JarSigners.Proofs.SignatureFile.Coverage

/-!
# Signature files and growing manifests

Signing adds sections to a manifest, after which the digest that an earlier signature file
states of the whole no longer matches. What the earlier file signs depends on the main section
and on the sections it names only, so as long as these keep their octets it does not change; and
where all their digests match, it is what a matching digest of the whole would give.
-/

set_option autoImplicit false

namespace JarSigners

theorem Section.Tolerates.not_contradicts {s : Section} {ending : String} {octets : Bytes}
    {a : Digest.Algorithm} (h : s.Tolerates ending octets) : ¬ s.Contradicts ending octets a := by
  rintro ⟨before, entry, after, hsplit, -, -, hdiffers⟩
  refine hdiffers (h entry ?_)
  rw [hsplit]
  exact List.mem_append_right _ List.mem_cons_self

namespace SignatureFile

variable {f : SignatureFile} {m grown : Manifest}

/-- The verdicts depend on the sections of the named entries only. -/
theorem verdicts_congr
    (hsections : ∀ name ∈ f.namedEntries, grown.sectionOctets? name = m.sectionOctets? name) :
    f.verdicts grown = f.verdicts m := by
  refine List.filterMap_congr fun s hs => ?_
  cases hname : s.name? with
  | none => rfl
  | some name =>
    have hmem : name ∈ f.namedEntries := List.mem_filterMap.2 ⟨s, hs, hname⟩
    simp only [Option.map_some, verdict, hsections name hmem]

/-- Beside a manifest that it does not confirm as a whole, a signature file sees the main section
and the sections it names only. -/
theorem coveredNames_congr (hm : ¬ f.ConfirmsWhole m) (hgrown : ¬ f.ConfirmsWhole grown)
    (hmain : grown.mainOctets = m.mainOctets)
    (hsections : ∀ name ∈ f.namedEntries, grown.sectionOctets? name = m.sectionOctets? name) :
    f.coveredNames grown = f.coveredNames m := by
  have hsame : f.ContradictsMain grown ↔ f.ContradictsMain m := by
    rw [ContradictsMain, ContradictsMain, hmain]
  by_cases h : f.ContradictsMain m
  · rw [coveredNames_of_contradictsMain hm h, coveredNames_of_contradictsMain hgrown (hsame.2 h)]
  · rw [coveredNames_of_sections hm h, coveredNames_of_sections hgrown (mt hsame.1 h),
      verdicts_congr hsections]

/-- A signature file whose sections are all confirmed signs every entry it names. -/
theorem coveredNames_of_all_confirmed
    (hsections : ∀ s ∈ f.content.sections, ∀ name, s.name? = some name →
      ∃ octets, m.sectionOctets? name = some octets ∧ s.Confirms "-Digest" octets)
    (hmain : f.content.main.Tolerates "-Digest-Manifest-Main-Attributes" m.mainOctets) :
    f.coveredNames m = .ok f.namedEntries := by
  by_cases hwhole : f.ConfirmsWhole m
  · exact coveredNames_of_confirmsWhole hwhole
  rw [coveredNames_of_sections hwhole fun ⟨_, h⟩ => hmain.not_contradicts h,
    checkedEntries_eq_ok_iff]
  constructor
  · intro s hs failure hrefuses
    cases hrefuses with
    | missing hname hmissing =>
      obtain ⟨octets, hoctets, -⟩ := hsections s hs _ hname
      simp [Manifest.sectionOctets?, hmissing] at hoctets
    | differs hname hoctets hdiffers =>
      obtain ⟨octets, hoctets', hconfirms⟩ := hsections s hs _ hname
      rw [hoctets] at hoctets'
      cases hoctets'
      exact hconfirms.2.not_contradicts hdiffers
  · rw [namedEntries, List.filterMap_filter]
    refine List.filterMap_congr fun s hs => ?_
    cases hname : s.name? with
    | none => simp
    | some name =>
      obtain ⟨octets, hoctets, hconfirms⟩ := hsections s hs name hname
      have hsigns : Signs m s := ⟨octets, by simp [counterpart?, hname, hoctets], hconfirms⟩
      simp [hsigns]

/-- Sections that are added to a manifest leave what a signature file signs alone, and the digest
of the whole manifest is not needed where the digests of the parts match. -/
theorem growth_keeps_covered_names (f : SignatureFile) :
    (∀ m grown : Manifest, ¬ f.ConfirmsWhole m → ¬ f.ConfirmsWhole grown →
      grown.mainOctets = m.mainOctets →
      (∀ name ∈ f.namedEntries, grown.sectionOctets? name = m.sectionOctets? name) →
      f.coveredNames grown = f.coveredNames m) ∧
    (∀ m : Manifest,
      (∀ s ∈ f.content.sections, ∀ name, s.name? = some name →
        ∃ octets, m.sectionOctets? name = some octets ∧ s.Confirms "-Digest" octets) →
      f.content.main.Tolerates "-Digest-Manifest-Main-Attributes" m.mainOctets →
      f.coveredNames m = .ok f.namedEntries) :=
  ⟨fun _ _ => coveredNames_congr, fun _ => coveredNames_of_all_confirmed⟩

/-! ### A manifest that gains a section -/

open ManifestDraft

/-- A signature file that states an outdated digest of the whole manifest and a digest of the
section of one file. -/
def outdated : ManifestDraft where
  main := [("Signature-Version", "1.0"), ("SHA-256-Digest-Manifest", "stale")]
  sections := [("a.txt", statement (stateSection "a.txt" [97]))]

def outdatedFile : SignatureFile :=
  ⟨"META-INF/A.SF", outdated.manifest⟩

theorem read_outdatedFile :
    SignatureFile.read "META-INF/A.SF" outdated.encode = .ok outdatedFile := by
  have hwritable : outdated.Writable := {
    main_ne_nil := List.cons_ne_nil _ _
    unnamed := by decide
    main := by decide
    names := by decide
    sections := List.forall_mem_singleton.2 (writable_statement _) }
  rw [SignatureFile.read, read_manifest hwritable]
  rfl

theorem outdatedFile_not_confirmsWhole (m : Manifest) : ¬ outdatedFile.ConfirmsWhole m := by
  intro h
  have hlabel : Digest.Algorithm.sha256.Labels "-Digest-Manifest" "SHA-256-Digest-Manifest" :=
    ⟨"SHA-256", by decide, by decide⟩
  have hspells := h.2 ("SHA-256-Digest-Manifest", "stale") (by decide) .sha256 hlabel
  have hundecodable : Base64.decode? (Text.trimmed "stale".toList) = none := by decide
  rw [Base64.spells, hundecodable] at hspells
  cases hspells

theorem sections_outdatedFile {s : Section} (hs : s ∈ outdatedFile.content.sections) :
    s.attributes = withName "a.txt" (statement (stateSection "a.txt" [97])) := by
  have hmem := List.mem_map_of_mem
    (f := fun s => (s.attributes, outdated.manifest.octets s)) hs
  rw [outdatedFile, attributes_octets_manifest] at hmem
  exact congrArg Prod.fst (List.mem_singleton.1 hmem)

theorem namedEntries_outdatedFile : outdatedFile.namedEntries = ["a.txt"] :=
  namedEntries_manifest "META-INF/A.SF" outdated

/-- A manifest with one more section is signed for what it was signed for before. -/
theorem growth_keeps_outdated_names :
    let before := (stating [("a.txt", [97])]).manifest
    let grown := (stating [("a.txt", [97]), ("b.txt", [98])]).manifest
    SignatureFile.read "META-INF/A.SF" outdated.encode = .ok outdatedFile ∧
      ¬ outdatedFile.ConfirmsWhole before ∧ ¬ outdatedFile.ConfirmsWhole grown ∧
      outdatedFile.coveredNames grown = outdatedFile.coveredNames before ∧
      outdatedFile.coveredNames before = .ok ["a.txt"] := by
  intro before grown
  have hbefore : before.sectionOctets? "a.txt" = some (stateSection "a.txt" [97]) :=
    sectionOctets?_stating (by decide) (by decide)
  have hgrown : grown.sectionOctets? "a.txt" = some (stateSection "a.txt" [97]) :=
    sectionOctets?_stating (by decide) (by decide)
  have hmain : grown.mainOctets = before.mainOctets := by
    rw [mainOctets_manifest, mainOctets_manifest]
    rfl
  have hsame : ∀ name ∈ outdatedFile.namedEntries,
      grown.sectionOctets? name = before.sectionOctets? name := by
    rw [namedEntries_outdatedFile, List.forall_mem_singleton, hbefore, hgrown]
  have hconfirms : ∀ s ∈ outdatedFile.content.sections, ∀ name, s.name? = some name →
      ∃ octets, before.sectionOctets? name = some octets ∧ s.Confirms "-Digest" octets := by
    intro s hs name hname
    have hattributes := sections_outdatedFile hs
    rw [name?_of_attributes hattributes] at hname
    cases hname
    refine ⟨_, hbefore, Agreement.of_eq_agrees_iff.1 ?_⟩
    rw [digests_statement hattributes, agreement_stated, if_pos rfl]
  have hmainDigests : outdatedFile.content.main.Tolerates "-Digest-Manifest-Main-Attributes"
      before.mainOctets := by
    have hnone : outdatedFile.content.main.digests "-Digest-Manifest-Main-Attributes" = [] := by
      decide
    rw [← Section.find?_digests_eq_none_iff, hnone]
    rfl
  refine ⟨read_outdatedFile, outdatedFile_not_confirmsWhole _, outdatedFile_not_confirmsWhole _,
    (growth_keeps_covered_names outdatedFile).1 before grown (outdatedFile_not_confirmsWhole _)
      (outdatedFile_not_confirmsWhole _) hmain hsame, ?_⟩
  rw [(growth_keeps_covered_names outdatedFile).2 before hconfirms hmainDigests,
    namedEntries_outdatedFile]

end SignatureFile

end JarSigners
