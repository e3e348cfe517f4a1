import JarSigners.Proofs.Manifest.Sections

/-!
# Cutting and joining manifests

The octets of a section, read on their own, state the same section and no other, so the octets of
a section determine its attributes wherever it stands (`section_octets_determine_section`). And
where a manifest ends with an empty line, what is appended to it is read on its own: the main
section stays, the sections are those of both parts, and a name is looked up in the appended part
first (`appended_sections_are_read_apart`).
-/

set_option autoImplicit false

namespace JarSigners

open Steps

/-- A section further back in a file. -/
def Section.moved (distance : Nat) (s : Section) : Section :=
  ⟨s.attributes, s.start + distance, s.stop + distance⟩

theorem Section.name?_moved (distance : Nat) (s : Section) : (s.moved distance).name? = s.name? :=
  rfl

namespace Manifest

/-! ### Sections that are cut out -/

/-- The octets of a section are lines of its own, which state it wherever they stand. -/
theorem exists_own_lines {bytes : Bytes} {all : List Section} {s : Section}
    (hall : (paragraphs bytes).mapM Paragraph.section? = .ok all) (hs : s ∈ all) :
    ∃ front run closing back, lines bytes = front ++ (run ++ closing) ++ back ∧ run ≠ [] ∧
      (∀ line ∈ run, line.text ≠ []) ∧
      (closing = [] ∧ back = [] ∨ ∃ blank : Line, blank.text = [] ∧ closing = [blank]) ∧
      s.start = (linesOctets front).length ∧
      s.stop = (linesOctets front).length + (linesOctets (run ++ closing)).length ∧
      attributes? (numbered 0 (run.map Line.text)) = .ok s.attributes := by
  obtain ⟨p, hp, hsection⟩ := exists_of_mem_of_mapM_eq_ok hall hs
  rw [paragraphs_eq] at hp
  obtain ⟨front, run, closing, back, before, hlines, hne, hrun, hclosing, rfl⟩ :=
    exists_of_mem_paragraphsFrom hp
  rw [section?_eq, map_eq_ok_iff] at hsection
  obtain ⟨attributes, hattributes, rfl⟩ := hsection
  refine ⟨front, run, closing, back, hlines, hne, hrun, hclosing, by simp, by simp, ?_⟩
  -- The numbers of the lines play no part unless there is a defect.
  have hsame : SameHeaders (numbered 0 (run.map Line.text)) (numbered before (run.map Line.text)) :=
    SameHeaders.of_texts (by simp)
  rwa [← toOption_eq_some_iff, hsame.toOption_attributes?, toOption_eq_some_iff]

/-- The octets of a section state the section and nothing else. -/
theorem ofBytes_octets {bytes : Bytes} {m : Manifest} {s : Section} (h : ofBytes bytes = .ok m)
    (hs : s ∈ m.sectionsInOrder) :
    ofBytes (m.octets s) =
      .ok (assembled (m.octets s) [⟨s.attributes, 0, (m.octets s).length⟩]) := by
  obtain ⟨all, hall, -, rfl⟩ := ofBytes_eq_ok_iff.1 h
  rw [sectionsInOrder_assembled (attributes_ne_nil_of_mapM hall)] at hs
  obtain ⟨front, run, closing, back, hlines, hne, hrun, hclosing, hstart, hstop, hattributes⟩ :=
    exists_own_lines hall hs
  have hoctets : (assembled bytes all).octets s = linesOctets (run ++ closing) := by
    have hbytes := linesOctets_lines bytes
    rw [hlines, linesOctets_append, linesOctets_append, List.append_assoc] at hbytes
    rw [Manifest.octets, hstart, hstop, Nat.add_sub_cancel_left, assembled, ← hbytes,
      List.drop_left, List.take_left]
  have hseparated : Separated (run ++ closing) := by
    have hwhole := separated_lines bytes
    rw [hlines] at hwhole
    exact hwhole.of_append.1.of_append.2
  have hparagraphs := paragraphsFrom_run hrun (hclosing.imp_left And.left) 0 0
  rw [if_neg hne, Nat.zero_add] at hparagraphs
  rw [hoctets, ofBytes_eq_ok_iff]
  refine ⟨_, ?_, by simp, rfl⟩
  rw [paragraphs_eq, lines_linesOctets hseparated, hparagraphs, List.mapM_cons, section?_eq,
    hattributes]
  rfl

/-- The sections of a manifest are those in file order, and a main one that states nothing. -/
theorem mem_sectionsInOrder_or {bytes : Bytes} {m : Manifest} {s : Section}
    (h : ofBytes bytes = .ok m) (hs : s ∈ m.main :: m.sections) :
    s ∈ m.sectionsInOrder ∨ s = noMain := by
  obtain ⟨all, hall, -, rfl⟩ := ofBytes_eq_ok_iff.1 h
  rw [sectionsInOrder_assembled (attributes_ne_nil_of_mapM hall)]
  cases all with
  | nil => simpa [assembled, parted] using hs
  | cons first rest =>
    unfold assembled parted at hs
    by_cases hname : first.name?.isNone = true
    · simp only [hname, if_true] at hs
      exact Or.inl hs
    · simp only [hname, Bool.false_eq_true, if_false] at hs
      exact (List.mem_cons.1 hs).symm

theorem octets_noMain (m : Manifest) : m.octets noMain = [] := by
  simp [Manifest.octets, noMain]

theorem sectionsInOrder_alone {m : Manifest} {s : Section} (hs : s ∈ m.sectionsInOrder)
    (bytes : Bytes) :
    (assembled bytes [⟨s.attributes, 0, bytes.length⟩]).sectionsInOrder =
      [⟨s.attributes, 0, bytes.length⟩] := by
  have hattributes : s.attributes ≠ [] := by simpa using (List.mem_filter.1 hs).2
  exact sectionsInOrder_assembled (by simpa using hattributes)

theorem octets_ne_nil {bytes : Bytes} {m : Manifest} {s : Section} (h : ofBytes bytes = .ok m)
    (hs : s ∈ m.sectionsInOrder) : m.octets s ≠ [] := by
  intro hnil
  have halone := ofBytes_octets h hs
  rw [hnil, ofBytes_eq_ok_iff, paragraphs_eq, lines_nil] at halone
  obtain ⟨all, hall, -, heq⟩ := halone
  cases hall
  have hsections := sectionsInOrder_alone hs []
  rw [heq] at hsections
  cases hsections

/-- Sections of the same octets state the same. -/
theorem attributes_eq_of_octets {bytes bytes' : Bytes} {m m' : Manifest} {s s' : Section}
    (h : ofBytes bytes = .ok m) (h' : ofBytes bytes' = .ok m') (hs : s ∈ m.main :: m.sections)
    (hs' : s' ∈ m'.main :: m'.sections) (hoctets : m.octets s = m'.octets s') :
    s.attributes = s'.attributes := by
  obtain hs | rfl := mem_sectionsInOrder_or h hs
  · obtain hs' | rfl := mem_sectionsInOrder_or h' hs'
    · have hboth := (ofBytes_octets h hs).symm.trans (hoctets ▸ ofBytes_octets h' hs')
      have hsections := congrArg sectionsInOrder (Except.ok.inj hboth)
      rw [sectionsInOrder_alone hs, sectionsInOrder_alone hs'] at hsections
      exact (Section.mk.inj (List.singleton_inj.1 hsections)).1
    · exact absurd (hoctets.trans (octets_noMain m')) (octets_ne_nil h hs)
  · obtain hs' | rfl := mem_sectionsInOrder_or h' hs'
    · exact absurd (hoctets.symm.trans (octets_noMain m)) (octets_ne_nil h' hs')
    · rfl

/-- Every section that states something is read from its octets alone, as the main section if it
has no name. So sections with the same octets state the same, wherever they stand. -/
theorem section_octets_determine_section :
    (∀ (file other : String) (bytes : Bytes) (m : Manifest), Manifest.read file bytes = .ok m →
      ∀ s ∈ m.sectionsInOrder, ∃ alone, Manifest.read other (m.octets s) = .ok alone ∧
        alone.sectionsInOrder = [⟨s.attributes, 0, (m.octets s).length⟩] ∧
        (s.name? = none → alone.main = ⟨s.attributes, 0, (m.octets s).length⟩ ∧
          alone.sections = []) ∧
        (s.name? ≠ none → alone.main = noMain ∧
          alone.sections = [⟨s.attributes, 0, (m.octets s).length⟩])) ∧
    (∀ (file file' : String) (bytes bytes' : Bytes) (m m' : Manifest),
      Manifest.read file bytes = .ok m → Manifest.read file' bytes' = .ok m' →
      ∀ s ∈ m.main :: m.sections, ∀ s' ∈ m'.main :: m'.sections,
        m.octets s = m'.octets s' → s.attributes = s'.attributes) := by
  constructor
  · intro file other bytes m h s hs
    rw [read_eq_ok_iff] at h
    refine ⟨_, read_eq_ok_iff.2 (ofBytes_octets h hs), sectionsInOrder_alone hs _, ?_, ?_⟩
    · intro hname
      have hnone : Section.name? ⟨s.attributes, 0, (m.octets s).length⟩ = none := hname
      simp [assembled, parted, hnone]
    · intro hname
      have hsome : Section.name? ⟨s.attributes, 0, (m.octets s).length⟩ ≠ none := hname
      simp [assembled, parted, hsome]
  · intro file file' bytes bytes' m m' h h' s hs s' hs' hoctets
    rw [read_eq_ok_iff] at h h'
    exact attributes_eq_of_octets h h' hs hs' hoctets

/-- The line `A: b` and none behind it. -/
def mainLines : List Line := [⟨[65, 58, 32, 98], .cr⟩, ⟨[], .cr⟩]

/-- The line `Name: c`, cut behind the colon, and none behind it. -/
def namedLines : List Line := [⟨[78, 97, 109, 101, 58], .crlf⟩, ⟨[32, 32, 99], .crlf⟩, ⟨[], .crlf⟩]

theorem read_named_twice :
    Manifest.read "M" (linesOctets (mainLines ++ namedLines ++ namedLines)) =
      .ok ⟨linesOctets (mainLines ++ namedLines ++ namedLines), ⟨[("A", "b")], 0, 6⟩,
        [⟨[("Name", "c")], 6, 20⟩, ⟨[("Name", "c")], 20, 34⟩]⟩ :=
  read_linesOctets "M" (mainLines ++ namedLines ++ namedLines)
    [⟨[("A", "b")], 0, 6⟩, ⟨[("Name", "c")], 6, 20⟩, ⟨[("Name", "c")], 20, 34⟩]
    (by decide) rfl (by decide)

theorem repeated_section_stands_alone :
    ∃ m alone, Manifest.read "M" (linesOctets (mainLines ++ namedLines ++ namedLines)) = .ok m ∧
      m.sections = [⟨[("Name", "c")], 6, 20⟩, ⟨[("Name", "c")], 20, 34⟩] ∧
      m.octets ⟨[("Name", "c")], 20, 34⟩ = linesOctets namedLines ∧
      Manifest.read "N" (linesOctets namedLines) = .ok alone ∧ alone.main = noMain ∧
      alone.sections = [⟨[("Name", "c")], 0, 14⟩] ∧
      ∀ s ∈ m.main :: m.sections, m.octets s = linesOctets namedLines →
        s.attributes = [("Name", "c")] := by
  obtain ⟨halone, hsame⟩ := section_octets_determine_section
  obtain ⟨alone, hread, -, -, hnamed⟩ :=
    halone "M" "N" _ _ read_named_twice ⟨[("Name", "c")], 20, 34⟩ (by decide)
  obtain ⟨hmain, hsections⟩ := hnamed (by decide)
  refine ⟨_, alone, read_named_twice, rfl, rfl, hread, hmain, hsections, fun s hs hoctets => ?_⟩
  exact hsame "M" "M" _ _ _ _ read_named_twice read_named_twice s hs ⟨[("Name", "c")], 20, 34⟩
    (by decide) hoctets

/-! ### Sections that are appended -/

/-- A paragraph of the same lines further back in a file. -/
structure Paragraph.MovedTo (distance : Nat) (p q : Paragraph) : Prop where
  texts : q.lines.map NumberedLine.text = p.lines.map NumberedLine.text
  start : q.start = p.start + distance
  stop : q.stop = p.stop + distance

theorem paragraphsFrom_moved (ls : List Line) (offset count distance more : Nat) :
    List.Forall₂ (Paragraph.MovedTo distance) (paragraphsFrom offset count ls)
      (paragraphsFrom (offset + distance) (count + more) ls) := by
  have hrun : ∀ (run closing : List Line), (∀ line ∈ run, line.text ≠ []) →
      (closing = [] ∨ ∃ blank : Line, blank.text = [] ∧ closing = [blank]) →
      ∀ offset count, List.Forall₂ (Paragraph.MovedTo distance)
        (paragraphsFrom offset count (run ++ closing))
        (paragraphsFrom (offset + distance) (count + more) (run ++ closing)) := by
    intro run closing hrun hclosing offset count
    rw [paragraphsFrom_run hrun hclosing, paragraphsFrom_run hrun hclosing]
    split
    · exact .nil
    · refine .cons ⟨by simp, rfl, ?_⟩ .nil
      dsimp only
      omega
  induction ls using induction_on_runs (p := fun line : Line => line.text = [])
    generalizing offset count with
  | full run hfull => simpa using hrun run [] hfull (Or.inl rfl) offset count
  | closed run blank rest hfull hblank ih =>
    rw [paragraphsFrom_append_blank hblank run rest offset count,
      paragraphsFrom_append_blank hblank run rest (offset + distance),
      Nat.add_right_comm offset, Nat.add_right_comm count]
    exact List.rel_append (hrun run [blank] hfull (Or.inr ⟨blank, hblank, rfl⟩) offset count)
      (ih _ _)

/-- A paragraph that was moved states the section that it stated, moved. -/
theorem Paragraph.MovedTo.toOption_section? {distance : Nat} {p q : Paragraph}
    (h : p.MovedTo distance q) :
    (p.section?.map (Section.moved distance)).toOption = q.section?.toOption := by
  have hattributes := (SameHeaders.of_texts h.texts.symm).toOption_attributes?
  rw [section?_eq, section?_eq, toOption_map, toOption_map, toOption_map, hattributes,
    Option.map_map, h.start, h.stop]
  rfl

/-- Moved lines state the sections that they stated, moved. -/
theorem mapM_section?_moved {ls : List Line} {offset count distance more : Nat}
    {found : List Section} :
    (paragraphsFrom (offset + distance) (count + more) ls).mapM Paragraph.section? = .ok found ↔
      ∃ all, (paragraphsFrom offset count ls).mapM Paragraph.section? = .ok all ∧
        found = all.map (Section.moved distance) := by
  have hsame := toOption_mapM_congr ((paragraphsFrom_moved ls offset count distance more).imp
    fun _ _ => Paragraph.MovedTo.toOption_section?)
  rw [mapM_map_result] at hsame
  rw [← toOption_eq_some_iff, ← hsame, toOption_eq_some_iff, map_eq_ok_iff]
  simp only [eq_comm]

/-- A file ends with an empty line. -/
def EndsBlank (bytes : Bytes) : Prop :=
  ∃ front blank, lines bytes = front ++ [blank] ∧ blank.text = []

/-- Behind an empty line the lines of a file are those of both parts, unless the two are joined by a
line ending. -/
theorem lines_append {a b : Bytes} {front : List Line} {blank : Line}
    (ha : lines a = front ++ [blank]) (hblank : blank.text = [])
    (hapart : ¬ (a.getLast? = some 13 ∧ b.head? = some 10)) :
    lines (a ++ b) = front ++ blank :: lines b := by
  have hla := separated_lines a
  have hlb := separated_lines b
  have hoctets := linesOctets_lines a
  rw [ha] at hla hoctets
  have hended := List.pairwise_append.1 hla.ended
  have hending : blank.ending ≠ .none := fun h => hla.full blank (by simp) h hblank
  rw [lines_eq_iff]
  constructor
  · have hsplit : front ++ blank :: lines b = (front ++ [blank]) ++ lines b := by simp
    rw [hsplit]
    refine ⟨hla.toUnjoined.append hlb.toUnjoined fun line hline hcr hhead => ?_, ?_⟩
    · obtain rfl : blank = line := by simpa using hline
      rw [linesOctets_lines] at hhead
      refine hapart ⟨?_, hhead⟩
      rw [← hoctets]
      simp [Line.octets, LineEnding.octets, hblank, hcr]
    · refine List.pairwise_append.2 ⟨hla.ended, hlb.ended, fun line hline next _ => ?_⟩
      obtain hfront | hlast := List.mem_append.1 hline
      · exact hended.2.2 line hfront blank (by simp)
      · rw [List.mem_singleton.1 hlast]
        exact hending
  · rw [← hoctets]
    simp [linesOctets_lines]

theorem paragraphs_append {a b : Bytes} (ha : EndsBlank a)
    (hapart : ¬ (a.getLast? = some 13 ∧ b.head? = some 10)) :
    paragraphs (a ++ b) =
      paragraphs a ++ paragraphsFrom (0 + a.length) (0 + (lines a).length) (lines b) := by
  obtain ⟨front, blank, hlines, hblank⟩ := ha
  have hoctets := linesOctets_lines a
  rw [paragraphs_eq, lines_append hlines hblank hapart, paragraphsFrom_append_blank hblank,
    ← hlines, hoctets]
  rfl

theorem assembled_append {first : Section} {rest more : List Section} (a b : Bytes) :
    assembled (a ++ b) (first :: rest ++ more) =
      ⟨a ++ b, (assembled a (first :: rest)).main,
        (assembled a (first :: rest)).sections ++ more⟩ := by
  unfold assembled
  rw [List.cons_append, parted, parted]
  split <;> rfl

/-- Sections that all have names have no main section among them. -/
theorem assembled_of_named {all : List Section} (h : ∀ s ∈ all, s.name?.isSome = true)
    (bytes : Bytes) : assembled bytes all = ⟨bytes, noMain, all⟩ := by
  cases all with
  | nil => rfl
  | cons first rest =>
    have hfirst : first.name?.isNone = false := by
      simpa [Option.isSome_iff_ne_none] using h first List.mem_cons_self
    simp [assembled, parted, hfirst]

/-- What is appended behind an empty line is read on its own. -/
theorem ofBytes_append {a b : Bytes} {ma m : Manifest} (ha : ofBytes a = .ok ma)
    (hsections : ma.sectionsInOrder ≠ []) (hblank : EndsBlank a)
    (hapart : ¬ (a.getLast? = some 13 ∧ b.head? = some 10)) :
    ofBytes (a ++ b) = .ok m ↔ ∃ mb, ofBytes b = .ok mb ∧
      (∀ s ∈ mb.sectionsInOrder, s.name?.isSome = true) ∧
      m = ⟨a ++ b, ma.main, ma.sections ++ mb.sections.map (Section.moved a.length)⟩ := by
  obtain ⟨all, hall, hnamed, rfl⟩ := ofBytes_eq_ok_iff.1 ha
  rw [sectionsInOrder_assembled (attributes_ne_nil_of_mapM hall)] at hsections
  obtain ⟨first, rest, rfl⟩ := List.exists_cons_of_ne_nil hsections
  rw [List.tail_cons] at hnamed
  constructor
  · intro h
    obtain ⟨both, hboth, hnamed', rfl⟩ := ofBytes_eq_ok_iff.1 h
    rw [paragraphs_append hblank hapart, List.mapM_append, hall, ok_bind, bind_eq_ok_iff] at hboth
    obtain ⟨found, hfound, hboth⟩ := hboth
    obtain rfl : first :: rest ++ found = both := Except.ok.inj hboth
    obtain ⟨more, hmore, rfl⟩ := mapM_section?_moved.1 hfound
    have hmore' : ∀ s ∈ more, s.name?.isSome = true := by
      intro s hs
      have hmoved := hnamed' (s.moved a.length) (by simp [List.mem_map_of_mem hs])
      rwa [Section.name?_moved] at hmoved
    have hb : ofBytes b = .ok (assembled b more) :=
      ofBytes_eq_ok_iff.2 ⟨more, hmore, fun s hs => hmore' s (List.mem_of_mem_tail hs), rfl⟩
    refine ⟨_, hb, ?_, ?_⟩
    · rwa [sectionsInOrder_assembled (attributes_ne_nil_of_mapM hmore)]
    · rw [assembled_append, assembled_of_named hmore']
  · rintro ⟨mb, hb, hmore', rfl⟩
    obtain ⟨more, hmore, -, rfl⟩ := ofBytes_eq_ok_iff.1 hb
    rw [sectionsInOrder_assembled (attributes_ne_nil_of_mapM hmore)] at hmore'
    refine ofBytes_eq_ok_iff.2 ⟨first :: rest ++ more.map (Section.moved a.length), ?_, ?_, ?_⟩
    · rw [paragraphs_append hblank hapart, List.mapM_append, hall, ok_bind,
        mapM_section?_moved.2 ⟨more, hmore, rfl⟩]
      rfl
    · intro s hs
      rw [List.cons_append, List.tail_cons, List.mem_append, List.mem_map] at hs
      obtain hs | ⟨t, ht, rfl⟩ := hs
      · exact hnamed s hs
      · exact hmore' t ht
    · rw [assembled_append, assembled_of_named hmore']

/-- A section lies within its file. -/
theorem range_le_length {bytes : Bytes} {m : Manifest} {s : Section} (h : ofBytes bytes = .ok m)
    (hs : s ∈ m.main :: m.sections) : s.start ≤ s.stop ∧ s.stop ≤ bytes.length := by
  obtain hs | rfl := mem_sectionsInOrder_or h hs
  · obtain ⟨all, hall, -, rfl⟩ := ofBytes_eq_ok_iff.1 h
    rw [sectionsInOrder_assembled (attributes_ne_nil_of_mapM hall)] at hs
    obtain ⟨front, run, closing, back, hlines, -, -, -, hstart, hstop, -⟩ :=
      exists_own_lines hall hs
    have hlength := congrArg List.length (linesOctets_lines bytes)
    rw [hlines, linesOctets_append, linesOctets_append, List.length_append,
      List.length_append] at hlength
    omega
  · exact ⟨Nat.le_refl 0, Nat.zero_le _⟩

/-- The octets of a section stay when more is appended to the file. -/
theorem octets_append {bytes more : Bytes} {m grown : Manifest} {s : Section}
    (h : ofBytes bytes = .ok m) (hs : s ∈ m.main :: m.sections)
    (hgrown : grown.bytes = bytes ++ more) : grown.octets s = m.octets s := by
  obtain ⟨all, -, -, hm⟩ := ofBytes_eq_ok_iff.1 h
  have hbytes : m.bytes = bytes := congrArg Manifest.bytes hm
  obtain ⟨hle, hstop⟩ := range_le_length h hs
  rw [Manifest.octets, Manifest.octets, hgrown, hbytes,
    List.drop_append_of_le_length (Nat.le_trans hle hstop), List.take_append_of_le_length]
  rw [List.length_drop]
  omega

theorem octets_moved {front : Bytes} {m grown : Manifest} (hgrown : grown.bytes = front ++ m.bytes)
    (s : Section) : grown.octets (s.moved front.length) = m.octets s := by
  have hwidth : s.stop + front.length - (s.start + front.length) = s.stop - s.start := by omega
  rw [Manifest.octets, Manifest.octets, hgrown, Section.moved, hwidth, Nat.add_comm s.start,
    List.drop_length_add_append]

/-- The last section of a name is looked for among those behind first. -/
theorem section?_append {m first second : Manifest} {distance : Nat}
    (hm : m.sections = first.sections ++ second.sections.map (Section.moved distance))
    (name : String) :
    m.section? name = ((second.section? name).map (Section.moved distance)).or
      (first.section? name) := by
  rw [Manifest.section?, hm, List.reverse_append, List.find?_append, ← List.map_reverse,
    List.find?_map]
  rfl

/-- What is appended to a manifest behind an empty line is read if it can be read on its own and
all of its sections have names. Then the main section stays, and the sections, their octets and
what is found by a name are those of the appended part and, where it has none, of the first. -/
theorem appended_sections_are_read_apart {file : String} {a b : Bytes} {ma : Manifest}
    (ha : Manifest.read file a = .ok ma) (hsections : ma.sectionsInOrder ≠ [])
    (hblank : EndsBlank a) (hapart : ¬ (a.getLast? = some 13 ∧ b.head? = some 10)) :
    ((∃ m, Manifest.read file (a ++ b) = .ok m) ↔
      ∃ mb, Manifest.read file b = .ok mb ∧ ∀ s ∈ mb.sectionsInOrder, s.name?.isSome = true) ∧
    (∀ m mb, Manifest.read file (a ++ b) = .ok m → Manifest.read file b = .ok mb →
      m.main = ma.main ∧ m.mainOctets = ma.mainOctets ∧
      m.sections = ma.sections ++ mb.sections.map (Section.moved a.length) ∧
      ∀ name,
        m.section? name = ((mb.section? name).map (Section.moved a.length)).or (ma.section? name) ∧
        m.sectionOctets? name = (mb.sectionOctets? name).or (ma.sectionOctets? name)) := by
  rw [read_eq_ok_iff] at ha
  have hread := fun m => ofBytes_append (m := m) ha hsections hblank hapart
  simp only [read_eq_ok_iff]
  constructor
  · constructor
    · rintro ⟨m, hm⟩
      obtain ⟨mb, hb, hnamed, -⟩ := (hread m).1 hm
      exact ⟨mb, hb, hnamed⟩
    · rintro ⟨mb, hb, hnamed⟩
      exact ⟨_, (hread _).2 ⟨mb, hb, hnamed, rfl⟩⟩
  · intro m mb hm hb
    obtain ⟨mb', hb', -, rfl⟩ := (hread m).1 hm
    obtain rfl : mb = mb' := Except.ok.inj (hb.symm.trans hb')
    obtain ⟨more, -, -, hmb⟩ := ofBytes_eq_ok_iff.1 hb
    have hbytes : mb.bytes = b := congrArg Manifest.bytes hmb
    refine ⟨rfl, octets_append ha List.mem_cons_self rfl, rfl, fun name => ?_⟩
    have hlookup := @section?_append
      ⟨a ++ b, ma.main, ma.sections ++ mb.sections.map (Section.moved a.length)⟩ ma mb a.length
      rfl name
    refine ⟨hlookup, ?_⟩
    rw [Manifest.sectionOctets?, hlookup, Manifest.sectionOctets?, Manifest.sectionOctets?]
    cases hfound : mb.section? name with
    | some s =>
      simp only [Option.map_some, Option.some_or, Option.some.injEq]
      exact octets_moved (by rw [hbytes]) s
    | none =>
      simp only [Option.map_none, Option.none_or]
      refine Option.map_congr fun s hs => ?_
      have hmem := List.mem_of_find?_eq_some hs
      exact octets_append ha (List.mem_cons_of_mem _ (List.mem_reverse.1 hmem)) rfl

/-- The lines `Name: c` and `D: e`, and the end of the file. -/
def laterLines : List Line := [⟨[78, 97, 109, 101, 58, 32, 99], .lf⟩, ⟨[68, 58, 32, 101], .none⟩]

theorem appended_section_is_found :
    ∃ m, Manifest.read "M" (linesOctets (mainLines ++ namedLines) ++ linesOctets laterLines) =
        .ok m ∧ m.main = ⟨[("A", "b")], 0, 6⟩ ∧
      m.section? "c" = some ⟨[("Name", "c"), ("D", "e")], 20, 32⟩ := by
  have ha : Manifest.read "M" (linesOctets (mainLines ++ namedLines)) =
      .ok ⟨linesOctets (mainLines ++ namedLines), ⟨[("A", "b")], 0, 6⟩,
        [⟨[("Name", "c")], 6, 20⟩]⟩ :=
    read_linesOctets "M" (mainLines ++ namedLines) [⟨[("A", "b")], 0, 6⟩, ⟨[("Name", "c")], 6, 20⟩]
      (by decide) rfl (by decide)
  have hb : Manifest.read "M" (linesOctets laterLines) =
      .ok ⟨linesOctets laterLines, noMain, [⟨[("Name", "c"), ("D", "e")], 0, 12⟩]⟩ :=
    read_linesOctets "M" laterLines [⟨[("Name", "c"), ("D", "e")], 0, 12⟩]
      (by decide) rfl (by decide)
  have hblank : EndsBlank (linesOctets (mainLines ++ namedLines)) :=
    ⟨mainLines ++ namedLines.dropLast, ⟨[], .crlf⟩, lines_linesOctets (by decide), rfl⟩
  obtain ⟨hwhole, hparts⟩ :=
    appended_sections_are_read_apart ha (by decide) hblank
      (by decide : ¬ (_ ∧ (linesOctets laterLines).head? = some 10))
  obtain ⟨m, hm⟩ := hwhole.2 ⟨_, hb, by decide⟩
  obtain ⟨hmain, -, -, hfound⟩ := hparts m _ hm hb
  refine ⟨m, hm, hmain, ?_⟩
  rw [(hfound "c").1]
  decide

end Manifest

end JarSigners
