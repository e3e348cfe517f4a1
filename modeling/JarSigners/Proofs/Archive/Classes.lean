import JarSigners.Proofs.Archive.EntryNames
import JarSigners.Proofs.Digest.Names

/-!
# Classes of names

The names of an archive and the attributes of its signature files are anybody's texts, and what
they are for is told from their first or last characters. Where the program counts octets instead,
and cuts there, the parts that it gets are the same: letters that differ in case have as many
octets, so what is alike to the directory or to an ending is cut off where it begins or ends
(`names_are_classified_by_whole_characters`).
-/

set_option autoImplicit false

namespace JarSigners

namespace EntryName

variable {name front back : String}

/-! ### Names by their parts -/

/-- A name is in the metadata directory if it begins with it, in any case. -/
theorem isMetadata_iff :
    isMetadata name = true ↔
      ∃ front back, name = front ++ back ∧ Text.alike front metadataDirectory = true := by
  constructor
  · intro h
    refine ⟨String.ofList (name.toList.take metadataDirectory.toList.length),
      String.ofList (name.toList.drop metadataDirectory.toList.length), ?_, ?_⟩
    · rw [← String.ofList_append, List.take_append_drop, String.ofList_toList]
    · rw [Text.alike_iff, String.toList_ofList]
      exact folded_take_of_isMetadata h
  · rintro ⟨front, back, rfl, hfront⟩
    rw [isMetadata, List.isPrefixOf_iff_prefix, String.toList_append, Text.folded_append,
      Text.alike_iff.1 hfront]
    exact List.prefix_append _ _

/-- Whether what stands behind the metadata directory in a name makes it that of a block. -/
def isBlockFile (file : List Char) : Bool :=
  !file.contains '/' &&
    match Text.cutAtLast '.' file with
    | some (stem, ending) =>
      !stem.isEmpty && blockEndings.any fun known => Text.alikeChars known.toList ending
    | none => false

theorem isBlock_append (hfront : Text.alike front metadataDirectory = true) :
    isBlock (front ++ back) = isBlockFile back.toList := by
  have hmetadata : isMetadata (front ++ back) = true := isMetadata_iff.2 ⟨front, back, rfl, hfront⟩
  have hlength : metadataDirectory.toList.length = front.toList.length :=
    (Text.alikeChars_length hfront).symm
  rw [isBlock, hmetadata, Bool.true_and, hlength, String.toList_append, List.drop_left]
  rfl

/-- The case of letters does not matter. -/
theorem isBlockFile_folded (file : List Char) :
    isBlockFile (Text.folded file) = isBlockFile file := by
  have hslash : (Text.folded file).contains '/' = file.contains '/' := by
    rw [Bool.eq_iff_iff, List.contains_iff_mem, List.contains_iff_mem,
      Text.mem_folded_iff (by decide)]
  have hstem : ∀ stem : List Char, (Text.folded stem).isEmpty = stem.isEmpty :=
    fun stem => List.isEmpty_map
  rw [isBlockFile, isBlockFile, hslash, Text.cutAtLast_folded]
  cases Text.cutAtLast '.' file with
  | none => rfl
  | some parts => simp only [Option.map_some, Text.alikeChars, Text.folded_folded, hstem]

/-- The endings of blocks have neither a slash nor a point. -/
theorem plain_blockEndings : ∀ ending ∈ blockEndings,
    '/' ∉ ending.toList ∧ '.' ∉ ending.toList := by
  decide

theorem isBlockFile_mark {stem : List Char} {ending : String} (hstem : stem ≠ [])
    (hslash : '/' ∉ stem) (hending : ending ∈ blockEndings) :
    isBlockFile (stem ++ '.' :: ending.toList) = true := by
  obtain ⟨hplain, hpoint⟩ := plain_blockEndings ending hending
  have hknown : (blockEndings.any fun known => Text.alikeChars known.toList ending.toList) = true :=
    List.any_eq_true.2 ⟨ending, hending, Text.alike_refl ending⟩
  rw [isBlockFile, Text.cutAtLast_mark hpoint]
  simp [hslash, hplain, hstem, hknown]

/-- The file of a block is a stem, which is not empty and has no slash, a point and an ending of
blocks, in any case. -/
theorem isBlockFile_iff {file : String} :
    isBlockFile file.toList = true ↔
      ∃ stem, ∃ ending ∈ blockEndings, stem ≠ "" ∧ '/' ∉ stem.toList ∧
        Text.alike file (stem ++ "." ++ ending) = true := by
  have htoList : ∀ stem ending : String,
      (stem ++ "." ++ ending).toList = stem.toList ++ '.' :: ending.toList := by
    intro stem ending
    rw [String.toList_append, String.toList_append, List.append_assoc]
    rfl
  constructor
  · intro h
    obtain ⟨hslash, hfile⟩ := Bool.and_eq_true_iff.1 h
    split at hfile
    next stem ending hcut =>
      obtain ⟨hstem, hknown⟩ := Bool.and_eq_true_iff.1 hfile
      obtain ⟨known, hmem, halike⟩ := List.any_eq_true.1 hknown
      obtain ⟨hwhole, _⟩ := Text.cutAtLast_eq_some hcut
      have hnoSlash : '/' ∉ file.toList := by simpa using hslash
      refine ⟨String.ofList stem, known, hmem, ?_, ?_, ?_⟩
      · intro hempty
        rw [← String.toList_inj, String.toList_ofList] at hempty
        rw [hempty] at hstem
        cases hstem
      · rw [String.toList_ofList]
        exact fun hc => hnoSlash (hwhole ▸ List.mem_append_left _ hc)
      · rw [Text.alike_iff, htoList, String.toList_ofList, hwhole, Text.folded_append,
          Text.folded_append]
        exact congrArg (fun rest => Text.folded stem ++ '.' :: rest)
          (Text.alikeChars_iff.1 halike).symm
    next => cases hfile
  · rintro ⟨stem, ending, hending, hstem, hslash, halike⟩
    rw [Text.alike_iff, htoList] at halike
    rw [← isBlockFile_folded, halike, isBlockFile_folded]
    exact isBlockFile_mark (mt String.toList_eq_nil_iff.1 hstem) hslash hending

/-- A name is that of a block if it consists of the metadata directory and the file of a block. -/
theorem isBlock_iff :
    isBlock name = true ↔
      ∃ stem, ∃ ending ∈ blockEndings, stem ≠ "" ∧ '/' ∉ stem.toList ∧
        Text.alike name (metadataDirectory ++ stem ++ "." ++ ending) = true := by
  have hassoc : ∀ stem ending : String, metadataDirectory ++ stem ++ "." ++ ending =
      metadataDirectory ++ (stem ++ "." ++ ending) := by
    intro stem ending
    rw [String.append_assoc, String.append_assoc, String.append_assoc]
  constructor
  · intro h
    obtain ⟨front, back, rfl, hfront⟩ := isMetadata_iff.1 (isMetadata_of_isBlock h)
    rw [isBlock_append hfront, isBlockFile_iff] at h
    obtain ⟨stem, ending, hending, hstem, hslash, hback⟩ := h
    refine ⟨stem, ending, hending, hstem, hslash, ?_⟩
    rw [hassoc]
    exact Text.alike_append_iff.2 ⟨front, back, rfl, hfront, hback⟩
  · rintro ⟨stem, ending, hending, hstem, hslash, halike⟩
    rw [hassoc] at halike
    obtain ⟨front, back, rfl, hfront, hback⟩ := Text.alike_append_iff.1 halike
    rw [isBlock_append hfront]
    exact isBlockFile_iff.2 ⟨stem, ending, hending, hstem, hslash, hback⟩

example : isBlock "meta-inf/ä.b.Ec" = true ∧ isBlock "META-INF/.RSA" = false := by decide

/-! ### Names by octets -/

/-- Whether the slice of a name that is as long as the metadata directory is alike to it. A name
that has no such slice is elsewhere. -/
def isMetadataSliced (name : String) : Bool :=
  (Text.sliceTo? name metadataDirectory.utf8ByteSize).any fun front =>
    Text.alike front metadataDirectory

/-- Whether a name is that of a block, by the slice behind the metadata directory. There is no
answer if that slice does not exist. -/
def isBlockSliced? (name : String) : Option Bool :=
  if isMetadataSliced name then do
    let file ← Text.sliceFrom? name metadataDirectory.utf8ByteSize
    some (isBlockFile file.toList)
  else some false

theorem isMetadataSliced_eq (name : String) : isMetadataSliced name = isMetadata name := by
  rw [Bool.eq_iff_iff, isMetadata_iff, isMetadataSliced, Option.any_eq_true]
  constructor
  · rintro ⟨front, hslice, hfront⟩
    obtain ⟨⟨_, back⟩, hcut, rfl⟩ := Option.map_eq_some_iff.1 hslice
    exact ⟨_, back, (Text.cutAtOctet?_eq_some_iff.1 hcut).1, hfront⟩
  · rintro ⟨front, back, rfl, hfront⟩
    rw [← Text.utf8ByteSize_eq_of_alike hfront]
    exact ⟨front, Text.sliceTo?_append front back, hfront⟩

/-- The slice behind the metadata directory exists whenever it is asked for. -/
theorem isBlockSliced?_eq (name : String) : isBlockSliced? name = some (isBlock name) := by
  rw [isBlockSliced?, isMetadataSliced_eq]
  cases hmetadata : isMetadata name with
  | true =>
    obtain ⟨front, back, rfl, hfront⟩ := isMetadata_iff.1 hmetadata
    rw [← Text.utf8ByteSize_eq_of_alike hfront, Text.sliceFrom?_append, isBlock_append hfront]
    rfl
  | false =>
    have hblock : isBlock name = false := by rw [isBlock, hmetadata, Bool.false_and]
    rw [hblock]
    rfl

end EntryName

/-- Names are classified by whole characters, and apart from each other. For every name the slices
that are asked for exist, and classifying by them is classifying by characters. An attribute names
an algorithm exactly if it is, in any case, one of its spellings and then the ending, whatever the
ending; no attribute has two of the three endings under which digests are stated; and the blocks
are exactly the names that are, in any case, the metadata directory, a stem that is not empty and
has no slash, a point, and one of three endings. -/
theorem names_are_classified_by_whole_characters :
    (∀ key ending, Digest.Algorithm.ofAttributeSliced? key ending =
      some (Digest.Algorithm.ofAttribute? key ending)) ∧
    (∀ name, EntryName.isMetadataSliced name = EntryName.isMetadata name) ∧
    (∀ name, EntryName.isBlockSliced? name = some (EntryName.isBlock name)) ∧
    (∀ key ending a, Digest.Algorithm.ofAttribute? key ending = some a ↔
      ∃ spelling ∈ a.spellings, Text.alike key (spelling ++ ending) = true) ∧
    (∀ key, ∀ ending ∈ ["-Digest", "-Digest-Manifest", "-Digest-Manifest-Main-Attributes"],
      ∀ other ∈ ["-Digest", "-Digest-Manifest", "-Digest-Manifest-Main-Attributes"], ∀ a b,
        Digest.Algorithm.ofAttribute? key ending = some a →
        Digest.Algorithm.ofAttribute? key other = some b → ending = other) ∧
    ∀ name, EntryName.isBlock name = true ↔
      ∃ stem, ∃ ending ∈ ["RSA", "DSA", "EC"], stem ≠ "" ∧ '/' ∉ stem.toList ∧
        Text.alike name ("META-INF/" ++ stem ++ "." ++ ending) = true := by
  refine ⟨Digest.Algorithm.ofAttributeSliced?_eq, EntryName.isMetadataSliced_eq,
    EntryName.isBlockSliced?_eq, ?_, ?_, ?_⟩
  · exact fun key ending a => Digest.Algorithm.ofAttribute?_eq_some_iff
  · exact fun key ending hending other hother a b ha hb =>
      Digest.Algorithm.ending_unique hending hother ha hb
  · exact fun name => EntryName.isBlock_iff

end JarSigners
