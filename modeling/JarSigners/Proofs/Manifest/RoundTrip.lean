import JarSigners.Proofs.Manifest.Lenient
import JarSigners.Proofs.Manifest.Written

/-!
# What is written is read back

A draft that may be written (`ManifestDraft.Writable`) is read back by both readers: the strict one
finds its sections with their attributes and ranges (`ofBytes_encode`), the lenient one the draft
itself (`read_encode`).
-/

set_option autoImplicit false

namespace JarSigners

namespace ManifestDraft

open Manifest

/-- A draft whose main section is there and is not taken for a named one, with attributes that may
be written. -/
structure Writable (d : ManifestDraft) : Prop where
  main_ne_nil : d.main ≠ []
  unnamed : ∀ a ∈ d.main, Text.alike a.1 "Name" = false
  main : ∀ a ∈ d.main, a.Writable
  names : ∀ s ∈ d.sections, Text.OneLine s.1
  sections : ∀ s ∈ d.sections, ∀ a ∈ s.2, a.Writable

/-- The attributes of the named sections, the name of each in front. -/
def namedSections (d : ManifestDraft) : List (List Attribute) :=
  d.sections.map fun s => withName s.1 s.2

/-- The attributes of all sections. -/
def allSections (d : ManifestDraft) : List (List Attribute) :=
  d.main :: d.namedSections

theorem encode_eq (d : ManifestDraft) : d.encode = d.allSections.flatMap encodeSection := by
  rw [encode, allSections, List.flatMap_cons, namedSections, List.flatMap_map, sectionOctets,
    List.flatMap_map]
  rfl

/-- A draft is read back through the lines of all its sections. -/
theorem encode_eq_lines (d : ManifestDraft) :
    d.encode = writtenLines (d.allSections.flatMap sectionLines) := by
  rw [encode_eq, flatMap_encodeSection]

theorem withName_writable {name : String} {attributes : List Attribute} (hname : Text.OneLine name)
    (h : ∀ a ∈ attributes, a.Writable) : ∀ a ∈ withName name attributes, a.Writable := by
  have hkey : Text.OneLine "Name" ∧ ¬ [':', ' '] <:+: "Name".toList ∧
      "Name".toList.head? ≠ some ' ' := by decide
  have hfirst : Attribute.Writable ("Name", name) := ⟨hkey.1, hname, hkey.2.1, hkey.2.2⟩
  exact List.forall_mem_cons.2 ⟨hfirst, h⟩

theorem namedSections_ne_nil (d : ManifestDraft) :
    ∀ attributes ∈ d.namedSections, attributes ≠ [] := by
  intro attributes hmem
  obtain ⟨s, _, rfl⟩ := List.mem_map.1 hmem
  exact List.cons_ne_nil _ _

theorem namedSections_writable {d : ManifestDraft} (hnames : ∀ s ∈ d.sections, Text.OneLine s.1)
    (h : ∀ s ∈ d.sections, ∀ a ∈ s.2, a.Writable) :
    ∀ attributes ∈ d.namedSections, ∀ a ∈ attributes, a.Writable := by
  intro attributes hmem
  obtain ⟨s, hs, rfl⟩ := List.mem_map.1 hmem
  exact withName_writable (hnames s hs) (h s hs)

namespace Writable

variable {d : ManifestDraft}

theorem allSections_ne_nil (h : d.Writable) : ∀ attributes ∈ d.allSections, attributes ≠ [] :=
  List.forall_mem_cons.2 ⟨h.main_ne_nil, d.namedSections_ne_nil⟩

theorem allSections_writable (h : d.Writable) :
    ∀ attributes ∈ d.allSections, ∀ a ∈ attributes, a.Writable :=
  List.forall_mem_cons.2 ⟨h.main, namedSections_writable h.names h.sections⟩

end Writable

/-! ### Strict reading -/

/-- Attributes that begin with a name are a section of this name. -/
theorem name?_of_head {key name : String} {rest : List Attribute} {start stop : Nat}
    (h : Text.alike key "Name" = true) :
    Section.name? ⟨(key, name) :: rest, start, stop⟩ = some name := by
  rw [Section.name?, Section.value?, List.find?_cons_of_pos (by exact h), Option.map_some]

theorem name?_withName {name : String} {attributes : List Attribute} {start stop : Nat} :
    Section.name? ⟨withName name attributes, start, stop⟩ = some name :=
  name?_of_head (Text.alike_refl "Name")

theorem name?_eq_none {attributes : List Attribute} {start stop : Nat}
    (h : ∀ a ∈ attributes, Text.alike a.1 "Name" = false) :
    Section.name? ⟨attributes, start, stop⟩ = none := by
  rw [Section.name?, Section.value?, Option.map_eq_none_iff, List.find?_eq_none]
  exact fun a ha => by simp [h a ha]

/-- The manifest that a draft is read as. -/
def manifest (d : ManifestDraft) : Manifest where
  bytes := d.encode
  main := ⟨d.main, 0, d.mainOctets.length⟩
  sections := placed d.mainOctets.length d.namedSections

theorem placed_allSections (d : ManifestDraft) :
    placed 0 d.allSections = d.manifest.main :: d.manifest.sections := by
  rw [allSections, placed, Nat.zero_add]
  rfl

/-- Sections that begin with a name have it, wherever they are placed. -/
theorem name?_of_mem_placed {sections : List (String × List Attribute)} {offset : Nat}
    {found : Section} (hfound : found ∈ placed offset (sections.map fun s => withName s.1 s.2)) :
    found.name?.isSome = true := by
  induction sections generalizing offset with
  | nil => exact absurd hfound List.not_mem_nil
  | cons s rest ih =>
    rw [List.map_cons, placed, List.mem_cons] at hfound
    rcases hfound with rfl | hlater
    · rw [name?_withName, Option.isSome_some]
    · exact ih hlater

/-- Strict reading finds the sections of a draft. -/
theorem ofBytes_encode {d : ManifestDraft} (h : d.Writable) :
    ofBytes d.encode = .ok d.manifest := by
  have hmain : d.manifest.main.name?.isNone = true := by
    rw [Option.isNone_iff_eq_none]
    exact name?_eq_none h.unnamed
  have hnamed : (d.manifest.sections.all fun s => s.name?.isSome) = true :=
    List.all_eq_true.2 fun found hfound => name?_of_mem_placed hfound
  have hall := mapM_section?_paragraphs h.allSections_ne_nil h.allSections_writable
  rw [← encode_eq, placed_allSections] at hall
  rw [ofBytes, hall, Steps.ok_bind]
  simp only [parted, hmain, if_true, hnamed]
  rfl

theorem read_manifest {d : ManifestDraft} (h : d.Writable) (file : String) :
    Manifest.read file d.encode = .ok d.manifest := by
  rw [Manifest.read, ofBytes_encode h]
  rfl

/-- Sections that were placed behind some octets are cut out again. -/
theorem cut_placed (front : Bytes) (sections : List (List Attribute)) :
    (placed front.length sections).map (fun s =>
        ((front ++ sections.flatMap encodeSection).drop s.start).take (s.stop - s.start)) =
      sections.map encodeSection := by
  induction sections generalizing front with
  | nil => rfl
  | cons attributes rest ih =>
    have hnext := ih (front ++ encodeSection attributes)
    rw [List.length_append, List.append_assoc, ← List.flatMap_cons] at hnext
    rw [placed, List.map_cons, hnext, List.map_cons, List.drop_left, List.flatMap_cons,
      Nat.add_sub_cancel_left, List.take_left]

/-- The octets of the main section are those that were written for it. -/
theorem mainOctets_manifest (d : ManifestDraft) : d.manifest.mainOctets = d.mainOctets := by
  have hcut := congrArg (List.take 1) (cut_placed [] d.allSections)
  rw [List.nil_append, ← encode_eq, List.length_nil, placed_allSections] at hcut
  exact List.singleton_inj.1 hcut

/-- So are those of each named section. -/
theorem sectionOctets_manifest (d : ManifestDraft) :
    d.manifest.sections.map d.manifest.octets = d.sectionOctets.map Prod.snd := by
  have hcut := congrArg (List.drop 1) (cut_placed [] d.allSections)
  rw [List.nil_append, ← encode_eq, List.length_nil, placed_allSections] at hcut
  refine hcut.trans ?_
  rw [allSections, List.map_cons, List.drop_succ_cons, List.drop_zero, namedSections,
    sectionOctets, List.map_map, List.map_map]
  rfl

/-! ### Lenient reading -/

theorem returnsPaired_writtenLines {texts : List Bytes}
    (htexts : ∀ text ∈ texts, ∀ b ∈ text, inLine b = true) :
    ReturnsPaired (writtenLines texts) := by
  induction texts with
  | nil => exact List.IsChain.nil
  | cons text texts ih =>
    obtain ⟨htext, hrest⟩ := List.forall_mem_cons.1 htexts
    rw [writtenLines_cons, List.append_assoc]
    exact (ih hrest).line htext

theorem sectionOf?_withName (name : String) (attributes : List Attribute) :
    sectionOf? (withName name attributes) = some (name, attributes) := by
  rw [withName, sectionOf?, if_pos (Text.alike_refl "Name")]

/-- The sections of a draft are drafted again as they were. -/
theorem drafted_allSections (d : ManifestDraft) : drafted d.allSections = d := by
  have hnamed : (fun s : String × List Attribute => sectionOf? (withName s.1 s.2)) = some :=
    funext fun s => sectionOf?_withName s.1 s.2
  rw [allSections, drafted, namedSections, List.filterMap_map, Function.comp_def, hnamed,
    List.filterMap_some]

/-- Lenient reading finds the draft. -/
theorem read_encode {d : ManifestDraft} (h : d.Writable) : read d.encode = d := by
  have hall := mapM_section?_paragraphs h.allSections_ne_nil h.allSections_writable
  have hpaired := returnsPaired_writtenLines
    (inLine_of_mem_flatMap_sectionLines h.allSections_writable)
  rw [← encode_eq] at hall
  rw [← encode_eq_lines] at hpaired
  rw [read_eq_drafted hpaired hall, attributes_placed, drafted_allSections]

/-! ### Both readers -/

/-- A draft that may be written is read back by both readers. Strict reading succeeds and finds
its main attributes and, in order, its sections with their names in front; the ranges it notes are
those that the sections were written to, the main one at the beginning and the others behind it;
and lenient reading gives the draft itself. -/
theorem written_draft_is_read_back {d : ManifestDraft} (h : d.Writable) (file : String) :
    (∃ m, Manifest.read file d.encode = .ok m ∧
      m.main.attributes = d.main ∧ m.mainOctets = d.mainOctets ∧
      m.sections.map Section.attributes = d.sections.map (fun s => ("Name", s.1) :: s.2) ∧
      m.sections.map m.octets = d.sectionOctets.map Prod.snd) ∧
    ManifestDraft.read d.encode = d :=
  ⟨⟨d.manifest, read_manifest h file, rfl, mainOctets_manifest d, attributes_placed _ _,
    sectionOctets_manifest d⟩, read_encode h⟩

/-- A manifest with a name that is cut in the middle of a character, and one that is empty. -/
def splitCharacters : ManifestDraft where
  main := [("Manifest-Version", "1.0"), ("", "")]
  sections :=
    [("aüüüüüüüüüüüüüüüüüüüüüüüüüüüüüüüüüüüüüüüü", [("SHA-256-Digest", "abc=")]),
     ("", [("Name", ": x"), (":", " ")])]

theorem splitCharacters_is_read_back :
    splitCharacters.Writable ∧ ManifestDraft.read splitCharacters.encode = splitCharacters ∧
    ∃ m, Manifest.read "M" splitCharacters.encode = .ok m ∧
      m.sections.map m.octets = splitCharacters.sectionOctets.map Prod.snd := by
  have h : splitCharacters.Writable :=
    ⟨by decide, by decide, by decide, by decide, by decide⟩
  obtain ⟨⟨m, hm, _, _, _, hoctets⟩, hread⟩ := written_draft_is_read_back h "M"
  exact ⟨h, hread, m, hm, hoctets⟩

end ManifestDraft

end JarSigners
