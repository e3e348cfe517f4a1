import JarSigners.Archive.Signatures
import JarSigners.Proofs.Text.Caseless

/-!
# Names of metadata entries

What stands behind the last point of a name tells manifests, signature files and signature
blocks apart, and names that are alike agree about it up to case (`ending?_eq_of_alike`). So no
entry has two of these parts to play.
-/

set_option autoImplicit false

namespace JarSigners

namespace EntryName

/-- What stands behind the last point of a name, with capitals made small. -/
def ending? (name : String) : Option (List Char) :=
  (Text.cutAtLast '.' name.toList).map fun parts => Text.folded parts.2

theorem ending?_eq_of_alike {a b : String} (h : Text.alike a b = true) :
    ending? a = ending? b := by
  have hfolded : Text.folded a.toList = Text.folded b.toList := by
    simpa [Text.alike, Text.alikeChars] using h
  have hcut := congrArg (Text.cutAtLast '.') hfolded
  rw [Text.cutAtLast_folded, Text.cutAtLast_folded] at hcut
  have hending := congrArg (Option.map Prod.snd) hcut
  simpa [ending?, Function.comp_def] using hending

/-- Names with different endings are not alike. -/
theorem not_alike_of_ending?_ne {a b : String} (h : ending? a ≠ ending? b) :
    Text.alike a b = false := by
  cases halike : Text.alike a b with
  | false => rfl
  | true => exact absurd (ending?_eq_of_alike halike) h

theorem ending?_manifest : ending? manifest = some "mf".toList := by decide

/-- A block has one of the endings of blocks. -/
theorem ending?_of_isBlock {name : String} (h : isBlock name = true) :
    ∃ known ∈ blockEndings, ending? name = some (Text.folded known.toList) := by
  simp only [isBlock, Bool.and_eq_true] at h
  obtain ⟨_, _, hfile⟩ := h
  split at hfile
  next stem ending hcut =>
    obtain ⟨_, hknown⟩ := Bool.and_eq_true_iff.1 hfile
    obtain ⟨known, hmem, halike⟩ := List.any_eq_true.1 hknown
    have hwhole := Text.cutAtLast_append
      (name.toList.take metadataDirectory.toList.length) hcut
    rw [List.take_append_drop] at hwhole
    have hfolded : Text.folded known.toList = Text.folded ending := by
      simpa [Text.alikeChars] using halike
    exact ⟨known, hmem, by rw [ending?, hwhole, hfolded]; rfl⟩
  next => exact absurd hfile Bool.false_ne_true

/-- A signature file has an ending of its own. -/
theorem ending?_signatureFile (stem : List Char) :
    ending? (String.ofList (stem ++ ".SF".toList)) = some "sf".toList := by
  have hcut : Text.cutAtLast '.' ".SF".toList = some ([], "SF".toList) := by decide
  have hfolded : Text.folded "SF".toList = "sf".toList := by decide
  rw [ending?, String.toList_ofList, Text.cutAtLast_append stem hcut, Option.map_some, hfolded]

theorem ending?_of_signatureFileOf? {block file : String}
    (h : signatureFileOf? block = some file) : ending? file = some "sf".toList := by
  obtain ⟨⟨stem, _⟩, _, rfl⟩ := Option.map_eq_some_iff.1 h
  exact ending?_signatureFile stem

/-- No block is a manifest or a signature file. -/
theorem ending?_ne_of_isBlock {name : String} (h : isBlock name = true) :
    ending? name ≠ some "mf".toList ∧ ending? name ≠ some "sf".toList := by
  obtain ⟨known, hmem, hending⟩ := ending?_of_isBlock h
  rw [hending]
  simp only [blockEndings, List.mem_cons, List.not_mem_nil, or_false] at hmem
  rcases hmem with rfl | rfl | rfl <;> decide

/-- No block is alike to a signature file. -/
theorem not_alike_of_isBlock {name block file : String} (h : isBlock name = true)
    (hfile : signatureFileOf? block = some file) : Text.alike name file = false := by
  apply not_alike_of_ending?_ne
  rw [ending?_of_signatureFileOf? hfile]
  exact (ending?_ne_of_isBlock h).2

/-- What stands behind the last point of a directory ends as directories do. -/
theorem ending?_of_isDirectory {name : String} (h : isDirectory name = true)
    {ending : List Char} (hending : ending? name = some ending) :
    ending.getLast? = some '/' ∨ ending.getLast? = some '\\' := by
  obtain ⟨⟨before, after⟩, hcut, rfl⟩ := Option.map_eq_some_iff.1 hending
  rw [isDirectory, (Text.cutAtLast_eq_some hcut).1] at h
  rcases List.eq_nil_or_concat after with rfl | ⟨front, last, rfl⟩
  · simp at h
  · rw [List.concat_eq_append, ← List.cons_append, ← List.append_assoc,
      List.getLast?_concat] at h
    have hlast : last = '/' ∨ last = '\\' := by simpa using h
    rcases hlast with rfl | rfl
    · exact Or.inl (by simp [Text.folded])
    · exact Or.inr (by simp [Text.folded])

/-- A directory has no ending that ends otherwise. -/
theorem ending?_ne_of_isDirectory {name : String} (h : isDirectory name = true)
    {ending : List Char} (hslash : ending.getLast? ≠ some '/')
    (hbackslash : ending.getLast? ≠ some '\\') : ending? name ≠ some ending := by
  intro hending
  rcases ending?_of_isDirectory h hending with hlast | hlast
  · exact hslash hlast
  · exact hbackslash hlast

theorem isBlock_of_isDirectory {name : String} (h : isDirectory name = true) :
    isBlock name = false := by
  cases hblock : isBlock name with
  | false => rfl
  | true =>
    obtain ⟨known, hmem, hending⟩ := ending?_of_isBlock hblock
    refine absurd hending ?_
    simp only [blockEndings, List.mem_cons, List.not_mem_nil, or_false] at hmem
    rcases hmem with rfl | rfl | rfl <;>
      exact ending?_ne_of_isDirectory h (by decide) (by decide)

/-! ### The metadata directory -/

theorem isMetadata_eq_of_alike {a b : String} (h : Text.alike a b = true) :
    isMetadata a = isMetadata b := by
  have hfolded : Text.folded a.toList = Text.folded b.toList := by
    simpa [Text.alike, Text.alikeChars] using h
  rw [isMetadata, isMetadata, hfolded]

/-- Names of which one is in the metadata directory are not alike. -/
theorem not_alike_of_isMetadata {a b : String} (ha : isMetadata a = false)
    (hb : isMetadata b = true) : Text.alike a b = false := by
  cases halike : Text.alike a b with
  | false => rfl
  | true =>
    rw [← isMetadata_eq_of_alike halike, ha] at hb
    cases hb

theorem isMetadata_of_isBlock {name : String} (h : isBlock name = true) :
    isMetadata name = true := by
  rw [isBlock, Bool.and_eq_true] at h
  exact h.1

/-- The metadata directory stands at the front of a name in it. -/
theorem folded_take_of_isMetadata {name : String} (h : isMetadata name = true) :
    Text.folded (name.toList.take metadataDirectory.toList.length) =
      Text.folded metadataDirectory.toList := by
  obtain ⟨rest, hrest⟩ := List.isPrefixOf_iff_prefix.1 h
  have hlength : metadataDirectory.toList.length =
      (Text.folded metadataDirectory.toList).length := (Text.length_folded _).symm
  calc Text.folded (name.toList.take metadataDirectory.toList.length)
      = (Text.folded name.toList).take metadataDirectory.toList.length := List.map_take
    _ = Text.folded metadataDirectory.toList := by
      rw [← hrest, hlength, List.take_left]

/-- The signature file of a block is in the metadata directory as the block is. -/
theorem isMetadata_of_signatureFileOf? {block file : String} (h : isBlock block = true)
    (hfile : signatureFileOf? block = some file) : isMetadata file = true := by
  have hfront := folded_take_of_isMetadata (isMetadata_of_isBlock h)
  simp only [isBlock, Bool.and_eq_true] at h
  obtain ⟨_, _, hcut⟩ := h
  split at hcut
  next stem ending hstem =>
    have hwhole := Text.cutAtLast_append
      (block.toList.take metadataDirectory.toList.length) hstem
    rw [List.take_append_drop] at hwhole
    rw [signatureFileOf?, hwhole, Option.map_some, Option.some.injEq] at hfile
    rw [← hfile, isMetadata, List.isPrefixOf_iff_prefix, String.toList_ofList,
      List.append_assoc, Text.folded_append, hfront]
    exact List.prefix_append _ _
  next => exact absurd hcut Bool.false_ne_true

end EntryName

end JarSigners
