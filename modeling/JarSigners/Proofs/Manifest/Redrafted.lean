import JarSigners.Proofs.Manifest.Composition
import JarSigners.Proofs.Manifest.Layout
import JarSigners.Proofs.Manifest.Setting

/-!
# Manifests that are read, changed and written

All that is kept of a manifest that was accepted may be written again (`printable_drafted`), and
what is written is accepted. An attribute is set in the first section of a name, and strict reading
finds the last. Where the name is not repeated these are one section: what a draft keeps of the
manifest it was read from is what was found there (`exists_section?_of_attributesOf?`), and what it
has once it is written is found in turn (`Printable.exists_section?_encode`).
-/

set_option autoImplicit false

namespace JarSigners

/-! ### What is read may be written -/

namespace Manifest

/-- What a header of one line states may be written, if it does not look like a continuation. -/
theorem Header.States.writable {h : Header} {a : Attribute} (hstates : h.States a)
    (hline : ∀ b ∈ h.octets, inLine b = true) (hfirst : h.octets.head? ≠ some 32) :
    a.Writable := by
  obtain ⟨hoctets, hcolon⟩ := hstates
  have honeLine : Text.OneLine (a.1 ++ ": " ++ a.2) := by
    constructor
    · intro hcr
      have hmem := Text.mem_utf8_of_mem hcr (by decide)
      rw [← hoctets] at hmem
      exact absurd (hline _ hmem) (by decide)
    · intro hlf
      have hmem := Text.mem_utf8_of_mem hlf (by decide)
      rw [← hoctets] at hmem
      exact absurd (hline _ hmem) (by decide)
  simp only [Text.OneLine, String.toList_append, List.mem_append, not_or] at honeLine
  refine ⟨⟨honeLine.1.1.1, honeLine.2.1.1⟩, ⟨honeLine.1.2, honeLine.2.2⟩, hcolon, fun hspace => ?_⟩
  obtain ⟨rest, hkey⟩ := List.head?_eq_some_iff.1 hspace
  refine hfirst ?_
  rw [hoctets, Text.utf8_eq, String.toList_append, String.toList_append, hkey, List.cons_append,
    List.cons_append, List.flatMap_cons, Text.encodeChar_of_small (by decide)]
  rfl

theorem inLine_of_mem_continuation {ls : List NumberedLine}
    (h : ∀ line ∈ ls, ∀ b ∈ line.text, inLine b = true) :
    ∀ b ∈ continuation ls, inLine b = true := by
  intro b hb
  obtain ⟨line, hline, hb⟩ := List.mem_flatMap.1 hb
  exact h line ((List.takeWhile_prefix _).subset hline) b (List.mem_of_mem_drop hb)

/-- Headers are of one line once they are joined, and do not look like continuations. -/
theorem octets_of_mem_headers {ls : List NumberedLine}
    (h : ∀ line ∈ ls, ∀ b ∈ line.text, inLine b = true) :
    ∀ header ∈ headers ls, (∀ b ∈ header.octets, inLine b = true) ∧
      header.octets.head? ≠ some 32 := by
  induction ls with
  | nil => exact fun _ hmem => absurd hmem List.not_mem_nil
  | cons line after ih =>
    obtain ⟨hline, hafter⟩ := List.forall_mem_cons.1 h
    rw [headers]
    split
    · exact ih hafter
    next hbegins =>
      rw [not_or] at hbegins
      refine List.forall_mem_cons.2 ⟨⟨fun b hb => ?_, ?_⟩, ih hafter⟩
      · exact (List.mem_append.1 hb).elim (hline b) (inLine_of_mem_continuation hafter b)
      · obtain ⟨b, text, htext⟩ := List.exists_cons_of_ne_nil hbegins.1
        simpa [NumberedLine.isContinuation, htext] using hbegins.2

/-- All attributes that are read may be written. -/
theorem writable_of_mapM {bytes : Bytes} {all : List Section}
    (h : (paragraphs bytes).mapM Paragraph.section? = .ok all) :
    ∀ s ∈ all, ∀ a ∈ s.attributes, a.Writable := by
  intro s hs a ha
  obtain ⟨run, hrun, hstates⟩ := (Steps.exists_fellow (states_of_mapM h)).2 s hs
  obtain ⟨header, hheader, hstates⟩ := (Steps.exists_fellow hstates).2 a ha
  have hinLine : ∀ line ∈ run, ∀ b ∈ line.text, inLine b = true := by
    intro line hline
    obtain ⟨l, hl, htext⟩ :=
      List.mem_map.1 (text_mem_of_mem_numbered (subset_of_mem_runs hrun hline))
    exact htext ▸ (separated_lines bytes).inLine l hl
  obtain ⟨hline, hfirst⟩ := octets_of_mem_headers hinLine header hheader
  exact hstates.writable hline hfirst

end Manifest

namespace ManifestDraft

open Manifest

/-- A section that is drafted begins with its name. -/
theorem sectionOf?_eq_some_iff {attributes : List Attribute} {s : String × List Attribute} :
    sectionOf? attributes = some s ↔
      ∃ key, attributes = (key, s.1) :: s.2 ∧ Text.alike key "Name" = true := by
  obtain ⟨name, rest⟩ := s
  cases attributes with
  | nil => simp [sectionOf?]
  | cons a others =>
    obtain ⟨key, value⟩ := a
    by_cases hname : Text.alike key "Name" = true
    · simp [sectionOf?, hname]
    · simp [sectionOf?, hname]

theorem mem_sections_drafted {all : List (List Attribute)} {s : String × List Attribute}
    (h : s ∈ (drafted all).sections) :
    ∃ key, (key, s.1) :: s.2 ∈ all.tail ∧ Text.alike key "Name" = true := by
  cases all with
  | nil => exact absurd h List.not_mem_nil
  | cons main rest =>
    obtain ⟨attributes, hmem, hsection⟩ := List.mem_filterMap.1 h
    obtain ⟨key, rfl, hname⟩ := sectionOf?_eq_some_iff.1 hsection
    exact ⟨key, hmem, hname⟩

/-- A draft of attributes that may be written may be written. -/
theorem printable_drafted {all : List (List Attribute)}
    (h : ∀ attributes ∈ all, ∀ a ∈ attributes, a.Writable) : (drafted all).Printable where
  main := by
    cases all with
    | nil => exact fun _ ha => absurd ha List.not_mem_nil
    | cons main rest => exact h main List.mem_cons_self
  names := by
    intro s hs
    obtain ⟨key, hmem, _⟩ := mem_sections_drafted hs
    exact (h _ (List.mem_of_mem_tail hmem) _ List.mem_cons_self).value
  sections := by
    intro s hs a ha
    obtain ⟨key, hmem, _⟩ := mem_sections_drafted hs
    exact h _ (List.mem_of_mem_tail hmem) a (List.mem_cons_of_mem _ ha)

end ManifestDraft

/-! ### Sections that are found -/

/-- Where at most one element has a property, the last one with it is any one with it. -/
theorem find?_reverse_of_countP_le_one {α : Type} {p : α → Bool} {l : List α} {x : α}
    (h : l.countP p ≤ 1) (hx : x ∈ l) (hp : p x = true) : l.reverse.find? p = some x := by
  obtain ⟨front, back, rfl⟩ := List.append_of_mem hx
  rw [List.countP_append, List.countP_cons_of_pos hp] at h
  have hback : back.find? p = none := List.find?_eq_none.2 (List.countP_eq_zero.1 (by omega))
  have hbehind : back.reverse.find? p = none := by
    simpa using hback
  rw [List.reverse_append, List.reverse_cons, List.append_assoc, List.find?_append, hbehind,
    Option.none_or, List.singleton_append, List.find?_cons_of_pos hp]

namespace Manifest

/-- At most one section has this name. -/
def NamesOnce (m : Manifest) (name : String) : Prop :=
  m.sections.countP (fun t => t.name? = some name) ≤ 1

instance (m : Manifest) (name : String) : Decidable (m.NamesOnce name) :=
  inferInstanceAs (Decidable (_ ≤ 1))

theorem sections_assembled_cons (bytes : Bytes) (first : Section) (rest : List Section) :
    (assembled bytes (first :: rest)).sections =
      if first.name?.isNone then rest else first :: rest := by
  rw [assembled, parted]
  split <;> rfl

/-- Behind the first section all that are read are named sections. -/
theorem tail_sublist_sections (bytes : Bytes) (all : List Section) :
    all.tail.Sublist (assembled bytes all).sections := by
  cases all with
  | nil => exact List.Sublist.refl []
  | cons first rest =>
    rw [sections_assembled_cons, List.tail_cons]
    split
    · exact List.Sublist.refl rest
    · exact List.sublist_cons_self first rest

end Manifest

namespace ManifestDraft

open Manifest

/-! ### The names of sections -/

/-- The names of the sections, in order. -/
def names (d : ManifestDraft) : List String :=
  d.sections.map Prod.fst

theorem count_names (d : ManifestDraft) (name : String) :
    d.names.count name = d.sections.countP fun s => s.1 = name := by
  rw [names, List.count_eq_countP, List.countP_map]
  rfl

/-- Setting an attribute repeats no name. -/
theorem count_names_set_le (d : ManifestDraft) (name key value other : String) :
    (d.set name key value).names.count other ≤ max 1 (d.names.count other) := by
  rw [names, set, names_setInSections]
  split
  · exact Nat.le_max_right _ _
  next hnew =>
    rw [List.count_append, List.count_singleton]
    split
    next hsame =>
      obtain rfl : name = other := by simpa using hsame
      rw [List.count_eq_zero.2 hnew]
      exact Nat.le_max_left _ _
    · exact Nat.le_max_right _ _

/-- A draft has a section of a name no more often than the manifest it was read from. -/
theorem count_names_drafted_le (bytes : Bytes) (all : List Section) (name : String) :
    (drafted (all.map Section.attributes)).names.count name ≤
      (assembled bytes all).sections.countP fun t => t.name? = some name := by
  refine Nat.le_trans ?_ ((tail_sublist_sections bytes all).countP_le)
  cases all with
  | nil => exact Nat.le_refl 0
  | cons main rest =>
    rw [count_names, List.map_cons, drafted, List.countP_filterMap, List.countP_map,
      List.tail_cons]
    refine List.countP_mono_left fun t _ hkept => ?_
    obtain ⟨s, hsection, hname⟩ : ∃ s, sectionOf? t.attributes = some s ∧ s.1 = name := by
      cases hsection : sectionOf? t.attributes with
      | none => simp [hsection] at hkept
      | some s => exact ⟨s, rfl, by simpa [hsection] using hkept⟩
    obtain ⟨key, hattributes, hkey⟩ := sectionOf?_eq_some_iff.1 hsection
    obtain ⟨attributes, start, stop⟩ := t
    subst hname
    subst hattributes
    exact decide_eq_true (name?_of_head hkey)

/-- What a draft keeps of a section is what was found under its name. -/
theorem exists_section?_of_attributesOf? {bytes : Bytes} {all : List Section} {name : String}
    {rest : List Attribute} (honce : (assembled bytes all).NamesOnce name)
    (h : (drafted (all.map Section.attributes)).attributesOf? name = some rest) :
    ∃ t key, (assembled bytes all).section? name = some t ∧ t.attributes = (key, name) :: rest := by
  obtain ⟨s, hfind, rfl⟩ := Option.map_eq_some_iff.1 h
  have hname : s.1 = name := by simpa using List.find?_some hfind
  obtain ⟨key, hmem, hkey⟩ := mem_sections_drafted (List.mem_of_find?_eq_some hfind)
  rw [← List.map_tail] at hmem
  obtain ⟨⟨_, start, stop⟩, hmem, rfl⟩ := List.mem_map.1 hmem
  refine ⟨_, key, find?_reverse_of_countP_le_one honce
    ((tail_sublist_sections bytes all).subset hmem) ?_, by rw [← hname]⟩
  exact decide_eq_true (by rw [← hname]; exact name?_of_head hkey)

/-! ### Strict reading of any draft -/

variable {d : ManifestDraft}

/-- The paragraphs of a draft are its named sections, and the main one if there is one. -/
theorem Printable.exists_mapM_section? (h : d.Printable) :
    ∃ all, (paragraphs d.encode).mapM Paragraph.section? = .ok all ∧
      (all = placed d.mainOctets.length d.namedSections ∨
        ∃ main, all = main :: placed d.mainOctets.length d.namedSections) := by
  have hwritable := namedSections_writable h.names h.sections
  cases hmain : d.main with
  | nil =>
    -- An empty line is all that is written of such a main section.
    refine ⟨_, ?_, Or.inl rfl⟩
    have hlines : (d.allSections.flatMap sectionLines).map written =
        [] ++ written [] :: (d.namedSections.flatMap sectionLines).map written := by
      rw [allSections, hmain]
      rfl
    have hinLine : ∀ line ∈ d.allSections.flatMap sectionLines, ∀ b ∈ line, inLine b = true := by
      exact inLine_of_mem_flatMap_sectionLines (List.forall_mem_cons.2 ⟨h.main, hwritable⟩)
    have hnamed := mapM_section?_paragraphsFrom d.namedSections_ne_nil hwritable
      d.mainOctets.length 1
    have hoctets : d.mainOctets.length = (linesOctets [written []]).length := by
      rw [mainOctets, hmain]
      rfl
    have hblank : paragraphsFrom 0 0 [written []] = [] := by decide
    rw [paragraphs_eq, encode_eq_lines, lines_writtenLines hinLine, hlines,
      paragraphsFrom_append_blank rfl, List.nil_append, hblank, List.nil_append, ← hnamed, hoctets]
    simp
  | cons a rest =>
    have hne : ∀ attributes ∈ d.allSections, attributes ≠ [] :=
      List.forall_mem_cons.2 ⟨hmain ▸ List.cons_ne_nil _ _, d.namedSections_ne_nil⟩
    have hall := mapM_section?_paragraphs hne (List.forall_mem_cons.2 ⟨h.main, hwritable⟩)
    rw [← encode_eq, placed_allSections] at hall
    exact ⟨_, hall, Or.inr ⟨_, rfl⟩⟩

/-- Strict reading accepts every draft that may be written, and finds its named sections behind a
main section that it perhaps takes for a named one. -/
theorem Printable.exists_ofBytes_encode (h : d.Printable) :
    ∃ m front, ofBytes d.encode = .ok m ∧
      m.sections.map Section.attributes = front ++ d.namedSections := by
  obtain ⟨all, hall, hsections⟩ := h.exists_mapM_section?
  have hnamed : ∀ t ∈ placed d.mainOctets.length d.namedSections, t.name?.isSome = true :=
    fun t ht => name?_of_mem_placed ht
  rcases hsections with rfl | ⟨main, rfl⟩
  · refine ⟨_, [], ofBytes_eq_ok_iff.2
      ⟨_, hall, fun t ht => hnamed t (List.mem_of_mem_tail ht), rfl⟩, ?_⟩
    rw [assembled_of_named hnamed, List.nil_append]
    exact attributes_placed _ _
  · refine ⟨_, if main.name?.isNone then [] else [main.attributes],
      ofBytes_eq_ok_iff.2 ⟨_, hall, hnamed, rfl⟩, ?_⟩
    rw [sections_assembled_cons]
    split
    · exact attributes_placed _ _
    · exact congrArg (main.attributes :: ·) (attributes_placed _ _)

/-- The last section of a name is found once a draft is written. -/
theorem Printable.exists_section?_encode (h : d.Printable) :
    ∃ m, ofBytes d.encode = .ok m ∧ ∀ s,
      d.sections.reverse.find? (fun t => t.1 = s.1) = some s →
      ∃ found, m.section? s.1 = some found ∧ found.attributes = withName s.1 s.2 := by
  obtain ⟨m, front, hread, hsections⟩ := h.exists_ofBytes_encode
  refine ⟨m, hread, fun s hlast => Option.map_eq_some_iff.1 ?_⟩
  have hnames : ((fun attributes => decide ((placeless attributes).name? = some s.1)) ∘
      fun t : String × List Attribute => withName t.1 t.2) = fun t => decide (t.1 = s.1) := by
    funext t
    simp [placeless, name?_withName]
  have hnamed : d.namedSections.reverse.find? (fun attributes =>
      (placeless attributes).name? = some s.1) = some (withName s.1 s.2) := by
    rw [namedSections, ← List.map_reverse, List.find?_map, hnames, hlast, Option.map_some]
  rw [map_attributes_section?, hsections, List.reverse_append, List.find?_append, hnamed,
    Option.some_or]

/-- Under a name that is not repeated the last section is the first. -/
theorem last_section_of_attributesOf? {name : String} {attributes : List Attribute}
    (honce : d.names.count name ≤ 1) (h : d.attributesOf? name = some attributes) :
    d.sections.reverse.find? (fun t => t.1 = name) = some (name, attributes) := by
  obtain ⟨⟨_, _⟩, hfind, rfl⟩ := Option.map_eq_some_iff.1 h
  obtain rfl : _ = name := by simpa using List.find?_some hfind
  rw [count_names] at honce
  exact find?_reverse_of_countP_le_one honce (List.mem_of_find?_eq_some hfind) (by simp)

end ManifestDraft

end JarSigners
