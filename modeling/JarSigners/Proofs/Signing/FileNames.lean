import JarSigners.Proofs.Archive.EntryNames
import JarSigners.Signing.Archive

/-!
# Names of the files of a signature

What stands before the last point of a name says whose file it is: a signer owns the files whose
stem is alike the signer's own (`owns_iff`), so of signers with names that are not alike none owns
the files of another. A block is recognised as one and leads to the signature file beside it.
-/

set_option autoImplicit false

namespace JarSigners

namespace EntryName

/-- What stands before the last point of a name, with capitals made small. -/
def stem? (name : String) : Option (List Char) :=
  (Text.cutAtLast '.' name.toList).map fun parts => Text.folded parts.1

theorem stem?_eq_of_alike {a b : String} (h : Text.alike a b = true) : stem? a = stem? b := by
  have hcut := congrArg (Text.cutAtLast '.') (Text.alike_iff.1 h)
  rw [Text.cutAtLast_folded, Text.cutAtLast_folded] at hcut
  have hstem := congrArg (Option.map Prod.fst) hcut
  simpa [stem?, Function.comp_def] using hstem

end EntryName

namespace Signer

/-! ### The two names -/

/-- A name by which files can be named: not empty, and without a slash. -/
structure NamesFiles (s : Signer) : Prop where
  ne_empty : s.keyName ≠ ""
  noSlash : '/' ∉ s.keyName.toList

instance (s : Signer) : Decidable s.NamesFiles :=
  decidable_of_iff (s.keyName ≠ "" ∧ '/' ∉ s.keyName.toList)
    ⟨fun h => ⟨h.1, h.2⟩, fun h => ⟨h.ne_empty, h.noSlash⟩⟩

theorem toList_stem (s : Signer) :
    s.stem.toList = EntryName.metadataDirectory.toList ++ s.keyName.toList.map Char.toUpper := by
  simp [stem, Text.capitals, String.toList_append]

theorem toList_signatureFileName (s : Signer) :
    s.signatureFileName.toList = s.stem.toList ++ '.' :: "SF".toList := by
  simp [signatureFileName, String.toList_append]

theorem toList_blockName (s : Signer) :
    s.blockName.toList = s.stem.toList ++ '.' :: s.key.kind.blockEnding.toList := by
  simp [blockName, String.toList_append]

theorem no_point_blockEnding (kind : KeyKind) : '.' ∉ kind.blockEnding.toList := by
  cases kind <;> decide

theorem cutAtLast_signatureFileName (s : Signer) :
    Text.cutAtLast '.' s.signatureFileName.toList = some (s.stem.toList, "SF".toList) := by
  rw [toList_signatureFileName, Text.cutAtLast_mark (by decide)]

theorem cutAtLast_blockName (s : Signer) :
    Text.cutAtLast '.' s.blockName.toList =
      some (s.stem.toList, s.key.kind.blockEnding.toList) := by
  rw [toList_blockName, Text.cutAtLast_mark (no_point_blockEnding _)]

theorem stem?_signatureFileName (s : Signer) :
    EntryName.stem? s.signatureFileName = some (Text.folded s.stem.toList) := by
  rw [EntryName.stem?, cutAtLast_signatureFileName, Option.map_some]

theorem stem?_blockName (s : Signer) :
    EntryName.stem? s.blockName = some (Text.folded s.stem.toList) := by
  rw [EntryName.stem?, cutAtLast_blockName, Option.map_some]

/-- Stems are alike as the names of the signers are. -/
theorem folded_stem_eq_iff {s t : Signer} :
    Text.folded s.stem.toList = Text.folded t.stem.toList ↔
      Text.alike s.keyName t.keyName = true := by
  rw [toList_stem, toList_stem, Text.folded_append, Text.folded_append, Text.folded_map_toUpper,
    Text.folded_map_toUpper, List.append_cancel_left_eq, Text.alike_iff]

/-! ### Whose files they are -/

/-- A signer owns the files with the signer's stem. -/
theorem owns_iff {s : Signer} {name : String} :
    s.owns name = true ↔ EntryName.stem? name = some (Text.folded s.stem.toList) := by
  rw [owns, Bool.or_eq_true]
  constructor
  · rintro (halike | hstem)
    · rw [EntryName.stem?_eq_of_alike halike, stem?_signatureFileName]
    · split at hstem
      next before after hcut =>
        have hfolded : Text.folded before = Text.folded s.stem.toList := by
          simpa [Text.alikeChars] using hstem
        rw [EntryName.stem?, hcut, Option.map_some, hfolded]
      next => exact absurd hstem Bool.false_ne_true
  · intro h
    obtain ⟨⟨before, after⟩, hcut, hfolded⟩ := Option.map_eq_some_iff.1 h
    right
    rw [hcut]
    simpa [Text.alikeChars] using hfolded

/-- A signer owns the files of another exactly if their names are alike. -/
theorem owns_signatureFileName {s t : Signer} :
    s.owns t.signatureFileName = Text.alike t.keyName s.keyName := by
  rw [Bool.eq_iff_iff, owns_iff, stem?_signatureFileName, Option.some.injEq, folded_stem_eq_iff]

theorem owns_blockName {s t : Signer} :
    s.owns t.blockName = Text.alike t.keyName s.keyName := by
  rw [Bool.eq_iff_iff, owns_iff, stem?_blockName, Option.some.injEq, folded_stem_eq_iff]

/-! ### What they are taken for -/

variable {s : Signer}

theorem isMetadata_signatureFileName (s : Signer) :
    EntryName.isMetadata s.signatureFileName = true := by
  rw [EntryName.isMetadata, toList_signatureFileName, toList_stem, List.append_assoc,
    Text.folded_append, List.isPrefixOf_iff_prefix]
  exact List.prefix_append _ _

theorem isMetadata_blockName (s : Signer) : EntryName.isMetadata s.blockName = true := by
  rw [EntryName.isMetadata, toList_blockName, toList_stem, List.append_assoc,
    Text.folded_append, List.isPrefixOf_iff_prefix]
  exact List.prefix_append _ _

/-- A block is recognised by its name. -/
theorem isBlock_blockName (h : s.NamesFiles) : EntryName.isBlock s.blockName = true := by
  have hslash : '/' ∉ s.keyName.toList.map Char.toUpper ++ '.' :: s.key.kind.blockEnding.toList := by
    rw [List.mem_append, List.mem_map, not_or]
    refine ⟨?_, by cases s.key.kind <;> decide⟩
    rintro ⟨c, hc, hupper⟩
    exact h.noSlash ((Text.toUpper_eq_iff (by decide) c).1 hupper ▸ hc)
  have hfile : s.blockName.toList.drop EntryName.metadataDirectory.toList.length =
      s.keyName.toList.map Char.toUpper ++ '.' :: s.key.kind.blockEnding.toList := by
    rw [toList_blockName, toList_stem, List.append_assoc, List.drop_left]
  have hne : s.keyName.toList.map Char.toUpper ≠ [] := by
    simpa using h.ne_empty
  have hknown : (EntryName.blockEndings.any fun known =>
      Text.alikeChars known.toList s.key.kind.blockEnding.toList) = true := by
    cases s.key.kind <;> decide
  simp only [EntryName.isBlock, isMetadata_blockName, hfile,
    Text.cutAtLast_mark (no_point_blockEnding _), hknown]
  simp [hslash, h.ne_empty]

/-- A block leads to the signature file. -/
theorem signatureFileOf?_blockName (s : Signer) :
    EntryName.signatureFileOf? s.blockName = some s.signatureFileName := by
  have hname : String.ofList (s.stem.toList ++ ".SF".toList) = s.signatureFileName := by
    rw [signatureFileName, String.ofList_append, String.ofList_toList, String.ofList_toList]
  rw [EntryName.signatureFileOf?, cutAtLast_blockName, Option.map_some]
  exact congrArg some hname

theorem ending?_signatureFileName (s : Signer) :
    EntryName.ending? s.signatureFileName = some "sf".toList :=
  EntryName.ending?_of_signatureFileOf? (signatureFileOf?_blockName s)

theorem isBlock_signatureFileName (s : Signer) :
    EntryName.isBlock s.signatureFileName = false := by
  cases hblock : EntryName.isBlock s.signatureFileName with
  | false => rfl
  | true => exact absurd (ending?_signatureFileName s) (EntryName.ending?_ne_of_isBlock hblock).2

theorem isDirectory_signatureFileName (s : Signer) :
    EntryName.isDirectory s.signatureFileName = false := by
  simp [EntryName.isDirectory, toList_signatureFileName, List.getLast?_append]

theorem isDirectory_blockName (s : Signer) : EntryName.isDirectory s.blockName = false := by
  cases hkind : s.key.kind <;>
    simp [EntryName.isDirectory, toList_blockName, List.getLast?_append, hkind,
      KeyKind.blockEnding]

/-- A name right in the metadata directory with an ending of signatures belongs to one. -/
theorem belongsToSignature_stem (h : s.NamesFiles) {name : String} {ending : List Char}
    (hname : name.toList = s.stem.toList ++ '.' :: ending)
    (hending : ending ∈ ["SF".toList, "RSA".toList, "EC".toList]) :
    EntryName.belongsToSignature name = true := by
  have hcapitals : ending.map Char.toUpper = ending ∧ '/' ∉ ending ∧
      '.' :: ending ∈ EntryName.signatureEndings.map String.toList := by
    simp only [List.mem_cons, List.not_mem_nil, or_false] at hending
    rcases hending with rfl | rfl | rfl <;> decide
  have hdirectory : EntryName.metadataDirectory.toList.map Char.toUpper =
      EntryName.metadataDirectory.toList := by decide
  have hslash : '/' ∉ (s.keyName.toList.map Char.toUpper).map Char.toUpper := by
    simp only [List.mem_map, not_exists, not_and, forall_exists_index, and_imp]
    rintro _ c hc rfl hupper
    rw [Text.toUpper_eq_iff (by decide), Text.toUpper_eq_iff (by decide)] at hupper
    exact h.noSlash (hupper ▸ hc)
  obtain ⟨known, hknown, hsuffix⟩ := List.mem_map.1 hcapitals.2.2
  have hupper : name.toList.map Char.toUpper = EntryName.metadataDirectory.toList ++
      ((s.keyName.toList.map Char.toUpper).map Char.toUpper ++ '.' :: ending) := by
    rw [hname, toList_stem, List.map_append, List.map_append, List.map_cons, hcapitals.1,
      hdirectory, List.append_assoc]
    rfl
  have hany : (EntryName.signatureEndings.any fun known => known.toList.isSuffixOf
      ((s.keyName.toList.map Char.toUpper).map Char.toUpper ++ '.' :: ending)) = true := by
    refine List.any_eq_true.2 ⟨known, hknown, ?_⟩
    rw [hsuffix, List.isSuffixOf_iff_suffix]
    exact List.suffix_append _ _
  have hnone : ((s.keyName.toList.map Char.toUpper).map Char.toUpper ++ '.' :: ending).contains '/' =
      false := by
    simp only [List.contains_eq_mem, List.mem_append, List.mem_cons, hslash, hcapitals.2.1]
    decide
  simp only [EntryName.belongsToSignature, hupper, List.drop_left, hany, hnone, Bool.or_true,
    Bool.not_false, Bool.and_true]
  rw [List.isPrefixOf_iff_prefix]
  exact List.prefix_append _ _

theorem belongsToSignature_signatureFileName (h : s.NamesFiles) :
    EntryName.belongsToSignature s.signatureFileName = true :=
  belongsToSignature_stem h (toList_signatureFileName s) (by decide)

theorem belongsToSignature_blockName (h : s.NamesFiles) :
    EntryName.belongsToSignature s.blockName = true :=
  belongsToSignature_stem h (toList_blockName s) (by cases s.key.kind <;> decide)

end Signer

/-! ### Other entries -/

namespace EntryName

theorem isMetadata_manifest : isMetadata manifest = true := by decide

theorem isManifest_eq_false {name : String} (h : isMetadata name = false) :
    isManifest name = false :=
  not_alike_of_isMetadata h isMetadata_manifest

/-- What belongs to a signature is in the metadata directory. -/
theorem isMetadata_of_belongsToSignature {name : String} (h : belongsToSignature name = true) :
    isMetadata name = true := by
  simp only [belongsToSignature, Bool.and_eq_true] at h
  obtain ⟨rest, hrest⟩ := List.isPrefixOf_iff_prefix.1 h.1
  have hfolded := congrArg Text.folded hrest
  rw [Text.folded_map_toUpper, Text.folded_append] at hfolded
  rw [isMetadata, ← hfolded, List.isPrefixOf_iff_prefix]
  exact List.prefix_append _ _

theorem belongsToSignature_eq_false {name : String} (h : isMetadata name = false) :
    belongsToSignature name = false := by
  cases hsignature : belongsToSignature name with
  | false => rfl
  | true =>
    rw [isMetadata_of_belongsToSignature hsignature] at h
    cases h

/-- The directory stands in capitals at the front of a name in capitals. -/
theorem map_toUpper_of_isMetadata {name : String} (h : isMetadata name = true) :
    name.toList.map Char.toUpper = metadataDirectory.toList ++
      (name.toList.drop metadataDirectory.toList.length).map Char.toUpper := by
  have hdirectory : (Text.folded metadataDirectory.toList).map Char.toUpper =
      metadataDirectory.toList := by decide
  have hfront := congrArg (List.map Char.toUpper) (folded_take_of_isMetadata h)
  rw [Text.map_toUpper_folded, hdirectory] at hfront
  calc name.toList.map Char.toUpper
      = (name.toList.take metadataDirectory.toList.length).map Char.toUpper ++
          (name.toList.drop metadataDirectory.toList.length).map Char.toUpper := by
        rw [← List.map_append, List.take_append_drop]
    _ = _ := by rw [hfront]

/-- A block belongs to a signature. -/
theorem belongsToSignature_of_isBlock {name : String} (h : isBlock name = true) :
    belongsToSignature name = true := by
  have hcapitals := map_toUpper_of_isMetadata (isMetadata_of_isBlock h)
  simp only [isBlock, Bool.and_eq_true] at h
  obtain ⟨-, hslash, hfile⟩ := h
  split at hfile
  next stem ending hcut =>
    obtain ⟨-, hknown⟩ := Bool.and_eq_true_iff.1 hfile
    obtain ⟨known, hmem, halike⟩ := List.any_eq_true.1 hknown
    have hfolded : Text.folded known.toList = Text.folded ending := by
      simpa [Text.alikeChars] using halike
    have hending := congrArg (List.map Char.toUpper) hfolded
    rw [Text.map_toUpper_folded, Text.map_toUpper_folded] at hending
    have hname := (Text.cutAtLast_eq_some hcut).1
    have hsuffix : (signatureEndings.any fun known => known.toList.isSuffixOf
        ((name.toList.drop metadataDirectory.toList.length).map Char.toUpper)) = true := by
      rw [hname, List.map_append, List.map_cons, ← hending]
      simp only [blockEndings, List.mem_cons, List.not_mem_nil, or_false] at hmem
      have hpoint : '.'.toUpper = '.' := by decide
      rw [List.any_eq_true]
      rcases hmem with rfl | rfl | rfl
      · exact ⟨".RSA", by decide, List.isSuffixOf_iff_suffix.2 (List.suffix_append _ _)⟩
      · exact ⟨".DSA", by decide, List.isSuffixOf_iff_suffix.2 (List.suffix_append _ _)⟩
      · exact ⟨".EC", by decide, List.isSuffixOf_iff_suffix.2 (List.suffix_append _ _)⟩
    have hnone : ((name.toList.drop metadataDirectory.toList.length).map Char.toUpper).contains
        '/' = false := by
      rw [List.contains_eq_mem, decide_eq_false_iff_not, List.mem_map]
      rintro ⟨c, hc, hupper⟩
      rw [Text.toUpper_eq_iff (by decide)] at hupper
      rw [hupper] at hc
      simp [hc] at hslash
    simp only [belongsToSignature, hcapitals, List.drop_left, hnone, hsuffix, Bool.or_true,
      Bool.not_false, Bool.and_true]
    rw [List.isPrefixOf_iff_prefix]
    exact List.prefix_append _ _
  next => exact absurd hfile Bool.false_ne_true

/-- A directory belongs to no signature. -/
theorem belongsToSignature_of_slash {name : String} (h : name.toList.getLast? = some '/') :
    belongsToSignature name = false := by
  rw [Bool.eq_false_iff]
  intro hsignature
  simp only [belongsToSignature, Bool.and_eq_true] at hsignature
  obtain ⟨hfolder, hnone, hkind⟩ := hsignature
  obtain ⟨file, hfile⟩ := List.isPrefixOf_iff_prefix.1 hfolder
  have hslash : '/'.toUpper = '/' := by decide
  have hlast : (name.toList.map Char.toUpper).getLast? = some '/' := by
    rw [List.getLast?_map, h, Option.map_some, hslash]
  rw [← hfile, List.drop_left] at hnone hkind
  rw [← hfile] at hlast
  cases file with
  | nil => exact absurd hkind (by decide)
  | cons c rest =>
    rw [List.getLast?_append, List.getLast?_cons, Option.some_or] at hlast
    have hmem : '/' ∈ c :: rest := List.mem_of_getLast? (by rw [List.getLast?_cons, hlast])
    simp [hmem] at hnone

theorem isDirectory_of_slash {name : String} (h : name.toList.getLast? = some '/') :
    isDirectory name = true := by
  simp [isDirectory, h]

/-- A directory is no manifest. -/
theorem isManifest_of_isDirectory {name : String} (h : isDirectory name = true) :
    isManifest name = false := by
  apply not_alike_of_ending?_ne
  rw [ending?_manifest]
  exact ending?_ne_of_isDirectory h (by decide) (by decide)

end EntryName

end JarSigners
