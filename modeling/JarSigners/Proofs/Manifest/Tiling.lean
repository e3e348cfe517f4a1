import JarSigners.Proofs.Manifest.Composition

/-!
# Sections tile the file

The octets of a manifest are those of its lines, and a line takes at least one. Every line that is
not empty belongs to one paragraph (`exists_paragraph_of_line`), and paragraphs stand one behind
the other (`pairwise_paragraphsFrom`). So the octets that belong to no section are endings of empty
lines, and no other octet is left out or belongs to two (`sections_tile_the_file`).
-/

set_option autoImplicit false

namespace JarSigners

open Steps

/-- An octet of a file belongs to a section. -/
def Section.Owns (s : Section) (k : Nat) : Prop :=
  s.start ≤ k ∧ k < s.stop

namespace Manifest

variable {bytes : Bytes} {position k : Nat} {line : Line} {ls : List Line}

/-! ### Where lines begin -/

/-- A line of a file begins at a position. -/
def LineAt (bytes : Bytes) (position : Nat) (line : Line) : Prop :=
  ∃ front back, lines bytes = front ++ line :: back ∧ position = (linesOctets front).length

/-- The position behind the line that is taken off at a position. -/
def behindLine (bytes : Bytes) (position : Nat) : Nat :=
  position + (takeLine (bytes.drop position)).1.octets.length

/-- What follows a line follows it in the file. -/
theorem takeLine_drop_snd (bytes : Bytes) (position : Nat) :
    (takeLine (bytes.drop position)).2 = bytes.drop (behindLine bytes position) := by
  have hsplit := takeLine_octets (bytes.drop position)
  have hrest := congrArg (List.drop (takeLine (bytes.drop position)).1.octets.length) hsplit
  rwa [List.drop_left, List.drop_drop] at hrest

theorem lt_behindLine (h : position < bytes.length) : position < behindLine bytes position := by
  have hne : bytes.drop position ≠ [] := by
    rw [ne_eq, List.drop_eq_nil_iff]
    omega
  have hpos := List.length_pos_iff.2 (takeLine_octets_ne_nil hne)
  unfold behindLine
  omega

theorem behindLine_le (h : position < bytes.length) :
    behindLine bytes position ≤ bytes.length := by
  have hsplit := congrArg List.length (takeLine_octets (bytes.drop position))
  rw [List.length_append, List.length_drop] at hsplit
  unfold behindLine
  omega

/-- A line is taken off at a position of a file: octets that are part of no ending, and the whole
ending behind them. -/
structure Line.StandsAt (bytes : Bytes) (position : Nat) (line : Line) : Prop where
  inside : position < bytes.length
  taken : (takeLine (bytes.drop position)).1 = line
  octets : bytes.drop position = line.octets ++ bytes.drop (behindLine bytes position)
  text : ∀ b ∈ line.text, b ≠ 13 ∧ b ≠ 10
  cr : line.ending = .cr → bytes[behindLine bytes position]? ≠ some 10
  last : line.ending = .none → behindLine bytes position = bytes.length

theorem LineAt.standsAt (h : LineAt bytes position line) : line.StandsAt bytes position := by
  obtain ⟨front, back, hlines, rfl⟩ := h
  have hseparated := separated_lines bytes
  have hbytes := linesOctets_lines bytes
  rw [hlines] at hseparated hbytes
  rw [linesOctets_append] at hbytes
  have hdrop : bytes.drop (linesOctets front).length = linesOctets (line :: back) := by
    rw [← hbytes, List.drop_left]
  have htake := hseparated.of_append.2.takeLine_linesOctets
  have hbehind : bytes.drop (behindLine bytes (linesOctets front).length) = linesOctets back := by
    rw [← takeLine_drop_snd, hdrop, htake]
  have hinside : (linesOctets front).length < bytes.length := by
    have hlength := List.length_pos_iff.2 (Line.octets_ne_nil (hseparated.full line (by simp)))
    rw [← hbytes, List.length_append, linesOctets_cons, List.length_append]
    omega
  refine ⟨hinside, by rw [hdrop, htake], by rw [hbehind, hdrop, linesOctets_cons], ?_, ?_, ?_⟩
  · intro b hb
    have hin := hseparated.inLine line (by simp) b hb
    simpa [inLine] using hin
  · intro hcr hlf
    apply hseparated.of_append.2.toUnjoined.head?_ne_lf hcr
    rw [← hbehind, List.head?_drop, hlf]
  · intro hnone
    have hback : back = [] := by
      by_contra hne
      exact hseparated.of_append.2.ending_ne_none hne hnone
    rw [hback, linesOctets_nil, List.drop_eq_nil_iff] at hbehind
    exact Nat.le_antisymm (behindLine_le hinside) hbehind

/-- Every octet belongs to a line. -/
theorem exists_line_of_lt (h : k < (linesOctets ls).length) :
    ∃ front line back, ls = front ++ line :: back ∧ (linesOctets front).length ≤ k ∧
      k < (linesOctets front).length + line.octets.length := by
  induction ls generalizing k with
  | nil => exact absurd h (Nat.not_lt_zero k)
  | cons first rest ih =>
    by_cases hfirst : k < first.octets.length
    · exact ⟨[], first, rest, rfl, Nat.zero_le k, by simpa using hfirst⟩
    · rw [linesOctets_cons, List.length_append] at h
      obtain ⟨front, line, back, rfl, hle, hlt⟩ := ih (k := k - first.octets.length) (by omega)
      refine ⟨first :: front, line, back, rfl, ?_, ?_⟩
      · rw [linesOctets_cons, List.length_append]
        omega
      · rw [linesOctets_cons, List.length_append]
        omega

/-- An empty line is its ending. -/
theorem LineAt.getElem?_blank (h : LineAt bytes position line) (hblank : line.text = [])
    (hle : position ≤ k) (hlt : k < position + line.octets.length) :
    bytes[k]? = some 13 ∨ bytes[k]? = some 10 := by
  obtain ⟨front, back, hlines, rfl⟩ := h
  have hbytes := linesOctets_lines bytes
  rw [hlines, linesOctets_append, linesOctets_cons] at hbytes
  have hget : bytes[k]? = line.octets[k - (linesOctets front).length]? := by
    rw [← hbytes, List.getElem?_append_right hle, List.getElem?_append_left (by omega)]
  have hmem := List.mem_of_getElem? (hget.trans (List.getElem?_eq_getElem (by omega)))
  have hend : ∀ b ∈ line.octets, b = 13 ∨ b = 10 := by
    intro b hb
    rw [Line.octets, hblank, List.nil_append] at hb
    cases hending : line.ending <;> simp_all [LineEnding.octets]
  rw [hget, List.getElem?_eq_getElem (by omega)]
  exact (hend _ (List.getElem_mem _)).imp (congrArg some) (congrArg some)

/-! ### Paragraphs tile the lines -/

section Paragraphs

variable {offset count : Nat} {p : Paragraph}

/-- A paragraph takes some octets, within those of the lines. -/
theorem bounds_of_mem_paragraphsFrom (h : p ∈ paragraphsFrom offset count ls) :
    offset ≤ p.start ∧ p.start < p.stop ∧ p.stop ≤ offset + (linesOctets ls).length := by
  obtain ⟨front, run, closing, back, before, rfl, hne, hrun, -, rfl⟩ :=
    exists_of_mem_paragraphsFrom h
  obtain ⟨first, rest, rfl⟩ := List.exists_cons_of_ne_nil hne
  have hfirst := Line.octets_ne_nil fun _ => hrun first List.mem_cons_self
  have hlength := List.length_pos_iff.2 hfirst
  simp only [linesOctets_append, linesOctets_cons, List.length_append]
  omega

/-- Paragraphs stand one behind the other. -/
theorem pairwise_paragraphsFrom (ls : List Line) (offset count : Nat) :
    (paragraphsFrom offset count ls).Pairwise fun p q => p.stop ≤ q.start := by
  have hone : ∀ (run closing : List Line), (∀ line ∈ run, line.text ≠ []) →
      (closing = [] ∨ ∃ blank : Line, blank.text = [] ∧ closing = [blank]) → ∀ offset count,
      (paragraphsFrom offset count (run ++ closing)).Pairwise fun p q => p.stop ≤ q.start := by
    intro run closing hrun hclosing offset count
    rw [paragraphsFrom_run hrun hclosing]
    split
    · exact List.Pairwise.nil
    · exact List.pairwise_singleton _ _
  induction ls using induction_on_runs (p := fun line : Line => line.text = [])
    generalizing offset count with
  | full run hrun => simpa using hone run [] hrun (Or.inl rfl) offset count
  | closed run blank rest hrun hblank ih =>
    rw [paragraphsFrom_append_blank hblank, List.pairwise_append]
    refine ⟨hone run [blank] hrun (Or.inr ⟨blank, hblank, rfl⟩) offset count, ih _ _, ?_⟩
    intro p hp q hq
    have hstop := (bounds_of_mem_paragraphsFrom hp).2.2
    have hstart := (bounds_of_mem_paragraphsFrom hq).1
    omega

/-- A line of a run belongs to the paragraph of the run. -/
theorem exists_paragraph_of_line_of_run {front back closing : List Line}
    (hrun : ∀ later ∈ front ++ line :: back, later.text ≠ [])
    (hclosing : closing = [] ∨ ∃ blank : Line, blank.text = [] ∧ closing = [blank]) :
    ∃ p ∈ paragraphsFrom offset count (front ++ line :: back ++ closing),
      p.start ≤ offset + (linesOctets front).length ∧
      offset + (linesOctets front).length + line.octets.length ≤ p.stop := by
  rw [paragraphsFrom_run hrun hclosing, if_neg (by simp)]
  refine ⟨_, List.mem_singleton_self _, Nat.le_add_right _ _, ?_⟩
  simp only [linesOctets_append, linesOctets_cons, List.length_append]
  omega

/-- A line that is not empty belongs to a paragraph. -/
theorem exists_paragraph_of_line (offset count : Nat) {front back : List Line}
    (hsplit : ls = front ++ line :: back) (hline : line.text ≠ []) :
    ∃ p ∈ paragraphsFrom offset count ls, p.start ≤ offset + (linesOctets front).length ∧
      offset + (linesOctets front).length + line.octets.length ≤ p.stop := by
  induction ls using induction_on_runs (p := fun line : Line => line.text = [])
    generalizing offset count front with
  | full run hrun =>
    subst hsplit
    have hfile : ([] : List Line) = [] ∨ ∃ blank : Line, blank.text = [] ∧ [] = [blank] := Or.inl rfl
    simpa using exists_paragraph_of_line_of_run hrun hfile
  | closed run blank rest hrun hblank ih =>
    -- The line is not the empty one that closes the run, so it comes before or behind it.
    rw [paragraphsFrom_append_blank hblank]
    obtain ⟨more, rfl, hrest⟩ | ⟨more, rfl, hrest⟩ := List.append_eq_append_iff.1 hsplit
    · cases more with
      | nil =>
        obtain ⟨rfl, -⟩ := List.cons.inj hrest
        exact absurd hblank hline
      | cons later more =>
        obtain ⟨rfl, hbehind⟩ := List.cons.inj hrest
        obtain ⟨p, hp, hstart, hstop⟩ := ih _ _ hbehind
        refine ⟨p, List.mem_append_right _ hp, ?_, ?_⟩
        · simp only [linesOctets_append, linesOctets_cons, linesOctets_nil, List.length_append,
            List.length_nil] at hstart ⊢
          omega
        · simp only [linesOctets_append, linesOctets_cons, linesOctets_nil, List.length_append,
            List.length_nil] at hstop ⊢
          omega
    · cases more with
      | nil =>
        obtain ⟨rfl, -⟩ := List.cons.inj hrest
        exact absurd hblank hline
      | cons later more =>
        obtain ⟨rfl, -⟩ := List.cons.inj hrest
        obtain ⟨p, hp, hbounds⟩ :=
          exists_paragraph_of_line_of_run hrun (Or.inr ⟨blank, hblank, rfl⟩)
        exact ⟨p, List.mem_append_left _ hp, hbounds⟩

end Paragraphs

/-! ### Where sections begin and end -/

/-- A section that begins at some position ends behind the first empty line from there on, or with
the file if there is none. -/
inductive EndsAt (bytes : Bytes) (start : Nat) : Nat → Prop
  | blank {position : Nat} {blank : Line} (hline : LineAt bytes position blank)
    (hblank : blank.text = []) (hstart : start ≤ position)
    (hfirst : ∀ other line, LineAt bytes other line → line.text = [] → start ≤ other →
      position ≤ other) :
    EndsAt bytes start (position + blank.octets.length)
  | file (hnone : ∀ position line, LineAt bytes position line → start ≤ position →
      line.text ≠ []) :
    EndsAt bytes start bytes.length

/-- An empty line that is not in front of a run is behind it. -/
theorem LineAt.behind_run {front run rest : List Line} (h : LineAt bytes position line)
    (hlines : lines bytes = front ++ run ++ rest) (hrun : ∀ later ∈ run, later.text ≠ [])
    (hblank : line.text = []) (hstart : (linesOctets front).length ≤ position) :
    ∃ more back, position = (linesOctets (front ++ run ++ more)).length ∧
      rest = more ++ line :: back := by
  obtain ⟨other, back, hother, rfl⟩ := h
  have hseparated := separated_lines bytes
  have hoctets : 0 < line.octets.length := by
    apply List.length_pos_iff.2
    exact Line.octets_ne_nil (hseparated.full line (by rw [hother]; simp))
  obtain ⟨more, rfl, hrest⟩ | ⟨more, hfront, hrest⟩ :=
    List.append_eq_append_iff.1 (hlines.symm.trans hother)
  · exact ⟨more, back, rfl, hrest⟩
  · cases more with
    | nil =>
      rw [List.append_nil] at hfront
      exact ⟨[], back, by rw [List.append_nil, hfront], hrest.symm⟩
    | cons later more =>
      -- The line is in the run, where no line is empty, or in front of it, where it ends too early.
      exfalso
      obtain ⟨rfl, -⟩ := List.cons.inj hrest
      obtain ⟨before, -, hin⟩ | ⟨before, rfl, hin⟩ := List.append_eq_append_iff.1 hfront
      · exact hrun line (hin ▸ by simp) hblank
      · cases before with
        | nil => exact hrun line (by rw [← List.nil_append run, ← hin]; simp) hblank
        | cons first before =>
          obtain ⟨rfl, -⟩ := List.cons.inj hin
          simp only [linesOctets_append, linesOctets_cons, List.length_append] at hstart
          omega

section Sections

variable {all : List Section} {s : Section}

/-- A section begins with a header line. -/
theorem begins_with_header (hall : (paragraphs bytes).mapM Paragraph.section? = .ok all)
    (hs : s ∈ all) :
    ∃ line, LineAt bytes s.start line ∧ line.text ≠ [] ∧ line.text.head? ≠ some 32 := by
  obtain ⟨front, run, closing, back, hlines, hne, hrun, -, hstart, -, hattributes⟩ :=
    exists_own_lines hall hs
  obtain ⟨first, more, rfl⟩ := List.exists_cons_of_ne_nil hne
  refine ⟨first, ⟨front, more ++ closing ++ back, by simp [hlines], hstart⟩,
    hrun first List.mem_cons_self, ?_⟩
  intro hspace
  have hcontinues : NumberedLine.isContinuation ⟨0 + 1, first.text⟩ = true := by
    simp [NumberedLine.isContinuation, hspace]
  rw [List.map_cons, numbered, attributes?_cons, if_pos hcontinues] at hattributes
  cases hattributes

/-- A section ends behind an empty line or with the file. -/
theorem endsAt_stop (hall : (paragraphs bytes).mapM Paragraph.section? = .ok all) (hs : s ∈ all) :
    EndsAt bytes s.start s.stop := by
  obtain ⟨front, run, closing, back, hlines, hne, hrun, hclosing, hstart, hstop, -⟩ :=
    exists_own_lines hall hs
  have hbytes := linesOctets_lines bytes
  have hsplit : lines bytes = front ++ run ++ (closing ++ back) := by simp [hlines]
  obtain ⟨rfl, rfl⟩ | ⟨blank, hblank, rfl⟩ := hclosing
  · have hend : s.stop = bytes.length := by
      rw [hstop, ← hbytes, hlines]
      simp
    rw [hend]
    apply EndsAt.file
    intro position line hline hafter hblank
    obtain ⟨more, later, -, hrest⟩ := hline.behind_run hsplit hrun hblank (hstart ▸ hafter)
    simp at hrest
  · have hend : s.stop = (linesOctets (front ++ run)).length + blank.octets.length := by
      rw [hstop]
      simp
      omega
    rw [hend]
    refine EndsAt.blank ⟨front ++ run, back, by simp [hlines], rfl⟩ hblank ?_ ?_
    · rw [hstart]
      simp
    · intro position line hline htext hafter
      obtain ⟨later, back, rfl, -⟩ := hline.behind_run hsplit hrun htext (hstart ▸ hafter)
      simp

end Sections

/-! ### Sections tile the file -/

/-- Sections take the places of the paragraphs. -/
theorem map_range_of_mapM {ps : List Paragraph} {all : List Section}
    (h : ps.mapM Paragraph.section? = .ok all) :
    ps.map (fun p => (p.start, p.stop)) = all.map fun s => (s.start, s.stop) := by
  have hrange : ∀ (p : Paragraph) (s : Section), p.section? = .ok s →
      (p.start, p.stop) = (s.start, s.stop) := by
    intro p s hsection
    rw [section?_eq, map_eq_ok_iff] at hsection
    obtain ⟨attributes, -, rfl⟩ := hsection
    rfl
  rw [← List.forall₂_eq_eq_eq, List.forall₂_map_left_iff, List.forall₂_map_right_iff]
  exact (forall₂_of_mapM_eq_ok h).imp hrange

/-- Sections take some octets within the file. -/
theorem bounds_of_mem_sections {all : List Section} {s : Section}
    (hall : (paragraphs bytes).mapM Paragraph.section? = .ok all) (hs : s ∈ all) :
    s.start < s.stop ∧ s.stop ≤ bytes.length := by
  have hmem : (s.start, s.stop) ∈ (paragraphs bytes).map fun p => (p.start, p.stop) := by
    rw [map_range_of_mapM hall]
    exact List.mem_map_of_mem hs
  obtain ⟨p, hp, hrange⟩ := List.mem_map.1 hmem
  obtain ⟨hstart, hstop⟩ := Prod.mk.inj hrange
  have hbounds := bounds_of_mem_paragraphsFrom (paragraphs_eq bytes ▸ hp)
  rw [linesOctets_lines] at hbounds
  omega

/-- Sections stand one behind the other. -/
theorem pairwise_sections {all : List Section}
    (hall : (paragraphs bytes).mapM Paragraph.section? = .ok all) :
    all.Pairwise fun s t => s.stop ≤ t.start := by
  have hparagraphs := pairwise_paragraphsFrom (lines bytes) 0 0
  rw [← paragraphs_eq] at hparagraphs
  have hranges : ((paragraphs bytes).map fun p => (p.start, p.stop)).Pairwise fun r q =>
      r.2 ≤ q.1 := List.pairwise_map.2 hparagraphs
  rw [map_range_of_mapM hall] at hranges
  exact List.pairwise_map.1 hranges

/-- An octet of a line that is not empty belongs to a section. -/
theorem exists_section_of_line {all : List Section}
    (hall : (paragraphs bytes).mapM Paragraph.section? = .ok all) (hline : LineAt bytes position line)
    (htext : line.text ≠ []) (hle : position ≤ k) (hlt : k < position + line.octets.length) :
    ∃ s ∈ all, s.Owns k := by
  obtain ⟨front, back, hlines, rfl⟩ := hline
  obtain ⟨p, hp, hstart, hstop⟩ :=
    exists_paragraph_of_line 0 0 hlines htext
  rw [← paragraphs_eq] at hp
  have hmem : (p.start, p.stop) ∈ all.map fun s => (s.start, s.stop) := by
    rw [← map_range_of_mapM hall]
    exact List.mem_map_of_mem hp
  obtain ⟨s, hs, hrange⟩ := List.mem_map.1 hmem
  obtain ⟨hsstart, hsstop⟩ := Prod.mk.inj hrange
  refine ⟨s, hs, ?_⟩
  unfold Section.Owns
  omega

/-- An octet belongs to one section at most. -/
theorem section_unique {all : List Section}
    (hall : (paragraphs bytes).mapM Paragraph.section? = .ok all) {s t : Section} (hs : s ∈ all)
    (ht : t ∈ all) (hsk : s.Owns k) (htk : t.Owns k) : t = s := by
  have hapart : all.Pairwise fun s t => ¬ (s.Owns k ∧ t.Owns k) := by
    apply (pairwise_sections hall).imp
    intro s t hstop hboth
    unfold Section.Owns at hboth
    omega
  by_contra hne
  have hsymm : Std.Symm fun s t : Section => ¬ (s.Owns k ∧ t.Owns k) :=
    ⟨fun s t hnot hboth => hnot hboth.symm⟩
  exact hapart.forall ht hs hne ⟨htk, hsk⟩

/-- The sections of a file lie in it one behind the other, each from the first octet of a header to
the end of an empty line or of the file, and leave out endings of empty lines only. -/
structure Tiles (bytes : Bytes) (all : List Section) : Prop where
  bounds : ∀ s ∈ all, s.start < s.stop ∧ s.stop ≤ bytes.length
  apart : all.Pairwise fun s t => s.stop ≤ t.start
  header : ∀ s ∈ all, ∃ line, LineAt bytes s.start line ∧ line.text ≠ [] ∧
    line.text.head? ≠ some 32
  ending : ∀ s ∈ all, EndsAt bytes s.start s.stop
  outside : ∀ k < bytes.length, (∀ s ∈ all, ¬ s.Owns k) → (bytes[k]? = some 13 ∨ bytes[k]? = some 10) ∧
    ∃ position blank, LineAt bytes position blank ∧ blank.text = [] ∧ position ≤ k ∧
      k < position + blank.octets.length
  inside : ∀ position line k, LineAt bytes position line → line.text ≠ [] → position ≤ k →
    k < position + line.octets.length → ∃ s ∈ all, s.Owns k ∧ ∀ t ∈ all, t.Owns k → t = s

theorem tiles_sections {all : List Section}
    (hall : (paragraphs bytes).mapM Paragraph.section? = .ok all) : Tiles bytes all where
  bounds _ hs := bounds_of_mem_sections hall hs
  apart := pairwise_sections hall
  header _ hs := begins_with_header hall hs
  ending _ hs := endsAt_stop hall hs
  outside k hk hnone := by
    rw [← linesOctets_lines bytes] at hk
    obtain ⟨front, line, back, hlines, hle, hlt⟩ := exists_line_of_lt hk
    have hline : LineAt bytes (linesOctets front).length line := ⟨front, back, hlines, rfl⟩
    have hblank : line.text = [] := by
      by_contra htext
      obtain ⟨s, hs, howns⟩ := exists_section_of_line hall hline htext hle hlt
      exact hnone s hs howns
    exact ⟨hline.getElem?_blank hblank hle hlt, _, line, hline, hblank, hle, hlt⟩
  inside position line k hline htext hle hlt := by
    obtain ⟨s, hs, howns⟩ := exists_section_of_line hall hline htext hle hlt
    exact ⟨s, hs, howns, fun t ht htk => section_unique hall hs ht howns htk⟩

/-- The main section is in front of the others, where there is one. -/
theorem sectionsInOrder_eq {m : Manifest} (h : ofBytes bytes = .ok m) :
    m.sectionsInOrder = (if m.main.attributes = [] then [] else [m.main]) ++ m.sections := by
  obtain ⟨all, hall, -, rfl⟩ := ofBytes_eq_ok_iff.1 h
  have hstate := attributes_ne_nil_of_mapM hall
  rw [sectionsInOrder_assembled hstate]
  cases all with
  | nil => rfl
  | cons first rest =>
    unfold assembled parted
    by_cases hname : first.name?.isNone = true
    · simp [hname, hstate first List.mem_cons_self]
    · simp [hname, noMain]

/-- At a position within a file a line is taken off that ends behind it and within the file, so the
lines of a file come to an end. Where the file is read, its sections tile it: no octet of a header
is left out, and none belongs to two sections. -/
theorem sections_tile_the_file (file : String) (bytes : Bytes) :
    (∀ position < bytes.length,
      position < behindLine bytes position ∧ behindLine bytes position ≤ bytes.length ∧
        lines (bytes.drop position) = (takeLine (bytes.drop position)).1 ::
          lines (bytes.drop (behindLine bytes position))) ∧
    (∀ position line, LineAt bytes position line → line.StandsAt bytes position) ∧
    ∀ m, Manifest.read file bytes = .ok m →
      m.sectionsInOrder = (if m.main.attributes = [] then [] else [m.main]) ++ m.sections ∧
        Tiles bytes m.sectionsInOrder := by
  refine ⟨?_, fun position line => LineAt.standsAt, ?_⟩
  · intro position hposition
    refine ⟨lt_behindLine hposition, behindLine_le hposition, ?_⟩
    rw [← takeLine_drop_snd]
    apply lines_of_ne_nil
    rw [ne_eq, List.drop_eq_nil_iff]
    omega
  · intro m hm
    rw [read_eq_ok_iff] at hm
    refine ⟨sectionsInOrder_eq hm, ?_⟩
    obtain ⟨all, hall, -, rfl⟩ := ofBytes_eq_ok_iff.1 hm
    rw [sectionsInOrder_assembled (attributes_ne_nil_of_mapM hall)]
    exact tiles_sections hall

/-- An empty line, the lines `A: b` and ` c`, two empty lines, and the line `Name: d` at the end of
the file. -/
def paddedLines : List Line :=
  [⟨[], .crlf⟩, ⟨[65, 58, 32, 98], .lf⟩, ⟨[32, 99], .crlf⟩, ⟨[], .cr⟩, ⟨[], .crlf⟩,
    ⟨[78, 97, 109, 101, 58, 32, 100], .none⟩]

theorem padded_sections_tile :
    ∃ m, Manifest.read "M" (linesOctets paddedLines) = .ok m ∧
      m.sectionsInOrder = [⟨[("A", "bc")], 2, 12⟩, ⟨[("Name", "d")], 14, 21⟩] ∧
      Tiles (linesOctets paddedLines) m.sectionsInOrder ∧
      behindLine (linesOctets paddedLines) 12 = 14 := by
  have hread : Manifest.read "M" (linesOctets paddedLines) =
      .ok ⟨linesOctets paddedLines, ⟨[("A", "bc")], 2, 12⟩, [⟨[("Name", "d")], 14, 21⟩]⟩ :=
    read_linesOctets "M" paddedLines [⟨[("A", "bc")], 2, 12⟩, ⟨[("Name", "d")], 14, 21⟩]
      (by decide) rfl (by decide)
  obtain ⟨-, -, htiles⟩ := sections_tile_the_file "M" (linesOctets paddedLines)
  obtain ⟨-, htiled⟩ := htiles _ hread
  exact ⟨_, hread, by decide, htiled, by decide⟩

end Manifest

end JarSigners
