import JarSigners.Manifest.Paragraph
import Mathlib.Data.List.Chain

/-!
# How a file falls into lines

Lines can be read back from a file if they are separated: no octet of a line belongs to a line
ending, only the last line may be without an ending, and no line that ends with CR is followed by
an empty one that ends with LF, because the two would be one ending. Every file falls into
separated lines, and in one way only (`lines_eq_iff`). Where the last line that is not empty has no
ending, the first empty line behind it is lost, and it alone (`LaidOut.exists_separated`).
-/

set_option autoImplicit false

namespace JarSigners.Manifest

/-- The octets of lines one behind the other. -/
def linesOctets (ls : List Line) : Bytes :=
  ls.flatMap Line.octets

/-- Lines without octets that end a line, the endings of which are not joined where they stand one
behind the other. A line without octets has an ending, for else it would not be there. -/
structure Unjoined (ls : List Line) : Prop where
  inLine : ∀ line ∈ ls, ∀ b ∈ line.text, inLine b = true
  full : ∀ line ∈ ls, line.ending = .none → line.text ≠ []
  apart : ls.IsChain fun line next => ¬ (line.ending = .cr ∧ next = ⟨[], .lf⟩)

/-- Lines that are told apart: only the last one may be without an ending. -/
structure Separated (ls : List Line) : Prop extends Unjoined ls where
  ended : ls.Pairwise fun line _ => line.ending ≠ .none

/-- Lines as they may be laid out in a file: the last one that is not empty may be without an
ending. -/
structure LaidOut (ls : List Line) : Prop extends Unjoined ls where
  ended : ls.Pairwise fun line later => line.ending = .none → later.text = []

instance (ls : List Line) : Decidable (Unjoined ls) :=
  decidable_of_iff ((∀ line ∈ ls, line.text.all inLine = true) ∧
      (∀ line ∈ ls, line.ending = .none → line.text ≠ []) ∧
      ls.IsChain fun line next => ¬ (line.ending = .cr ∧ next = ⟨[], .lf⟩))
    ⟨fun ⟨hinLine, hfull, hapart⟩ =>
        ⟨fun line hline => List.all_eq_true.1 (hinLine line hline), hfull, hapart⟩,
      fun h => ⟨fun line hline => List.all_eq_true.2 (h.inLine line hline), h.full, h.apart⟩⟩

instance (ls : List Line) : Decidable (Separated ls) :=
  decidable_of_iff (Unjoined ls ∧ ls.Pairwise fun line _ => line.ending ≠ .none)
    ⟨fun ⟨hlines, hended⟩ => ⟨hlines, hended⟩, fun h => ⟨h.toUnjoined, h.ended⟩⟩

instance (ls : List Line) : Decidable (LaidOut ls) :=
  decidable_of_iff
    (Unjoined ls ∧ ls.Pairwise fun line later => line.ending = .none → later.text = [])
    ⟨fun ⟨hlines, hended⟩ => ⟨hlines, hended⟩, fun h => ⟨h.toUnjoined, h.ended⟩⟩

@[simp] theorem linesOctets_nil : linesOctets [] = [] := rfl

@[simp] theorem linesOctets_cons (line : Line) (ls : List Line) :
    linesOctets (line :: ls) = line.octets ++ linesOctets ls :=
  List.flatMap_cons

@[simp] theorem linesOctets_append (front back : List Line) :
    linesOctets (front ++ back) = linesOctets front ++ linesOctets back :=
  List.flatMap_append

theorem inLine_eq_false_iff {b : UInt8} : inLine b = false ↔ b = 13 ∨ b = 10 := by
  simp only [inLine, Bool.and_eq_false_iff, bne_eq_false_iff_eq]

namespace Unjoined

variable {line : Line} {ls front back : List Line}

theorem nil : Unjoined [] :=
  ⟨by simp, by simp, List.IsChain.nil⟩

theorem of_append (h : Unjoined (front ++ back)) : Unjoined front ∧ Unjoined back := by
  have hapart := List.isChain_append.1 h.apart
  constructor
  · exact ⟨fun line hline => h.inLine line (List.mem_append_left _ hline),
      fun line hline => h.full line (List.mem_append_left _ hline), hapart.1⟩
  · exact ⟨fun line hline => h.inLine line (List.mem_append_right _ hline),
      fun line hline => h.full line (List.mem_append_right _ hline), hapart.2.1⟩

theorem of_cons (h : Unjoined (line :: ls)) : Unjoined ls :=
  (of_append (show Unjoined ([line] ++ ls) from h)).2

/-- Lines may stand behind others unless these end with CR and they begin with LF. -/
theorem append (hfront : Unjoined front) (hback : Unjoined back)
    (hcr : ∀ line ∈ front.getLast?, line.ending = .cr → (linesOctets back).head? ≠ some 10) :
    Unjoined (front ++ back) where
  inLine line hline := (List.mem_append.1 hline).elim (hfront.inLine line) (hback.inLine line)
  full line hline := (List.mem_append.1 hline).elim (hfront.full line) (hback.full line)
  apart := by
    refine List.isChain_append.2 ⟨hfront.apart, hback.apart, ?_⟩
    rintro line hline next hnext ⟨hending, rfl⟩
    obtain ⟨rest, rfl⟩ := List.head?_eq_some_iff.1 hnext
    exact hcr line hline hending rfl

theorem cons (hls : Unjoined ls) (htext : ∀ b ∈ line.text, Manifest.inLine b = true)
    (hfull : line.ending = .none → line.text ≠ [])
    (hcr : line.ending = .cr → (linesOctets ls).head? ≠ some 10) : Unjoined (line :: ls) := by
  have hline : Unjoined [line] :=
    ⟨by simpa using htext, by simpa using hfull, List.isChain_singleton _⟩
  exact hline.append hls (by simpa using hcr)

/-- A line that ends with CR is not followed by a LF. -/
theorem head?_ne_lf (h : Unjoined (line :: ls)) (hcr : line.ending = .cr) :
    (linesOctets ls).head? ≠ some 10 := by
  cases ls with
  | nil => simp
  | cons next rest =>
    obtain ⟨text, ending⟩ := next
    cases text with
    | cons b text =>
      have hb := h.inLine ⟨b :: text, ending⟩ (by simp) b (by simp)
      simp only [linesOctets_cons, Line.octets, List.cons_append, List.head?_cons, ne_eq,
        Option.some.injEq]
      rintro rfl
      exact absurd hb (by decide)
    | nil =>
      have hnone := h.full ⟨[], ending⟩ (by simp)
      have hapart := (List.isChain_cons_cons.1 h.apart).1
      cases ending with
      | none => simp at hnone
      | lf => simp [hcr] at hapart
      | cr => simp [Line.octets, LineEnding.octets]
      | crlf => simp [Line.octets, LineEnding.octets]

end Unjoined

/-! ### Separated lines are read back -/

namespace Separated

variable {line : Line} {ls front back : List Line}

theorem nil : Separated [] :=
  ⟨Unjoined.nil, List.Pairwise.nil⟩

theorem of_append (h : Separated (front ++ back)) : Separated front ∧ Separated back := by
  obtain ⟨hfront, hback⟩ := h.toUnjoined.of_append
  have hended := List.pairwise_append.1 h.ended
  exact ⟨⟨hfront, hended.1⟩, ⟨hback, hended.2.1⟩⟩

/-- Only the last line is without an ending. -/
theorem ending_ne_none (h : Separated (line :: ls)) (hls : ls ≠ []) : line.ending ≠ .none := by
  obtain ⟨next, rest, rfl⟩ := List.exists_cons_of_ne_nil hls
  exact (List.pairwise_cons.1 h.ended).1 next List.mem_cons_self

end Separated

/-- A line is taken off what follows it. -/
theorem takeLine_append {line : Line} {rest : Bytes} (htext : ∀ b ∈ line.text, inLine b = true)
    (hnone : line.ending = .none → rest = []) (hcr : line.ending = .cr → rest.head? ≠ some 10) :
    takeLine (line.octets ++ rest) = (line, rest) := by
  obtain ⟨text, ending⟩ := line
  have hending : takeEnding (ending.octets ++ rest) = (ending, rest) := by
    cases ending with
    | none => rw [hnone rfl]; rfl
    | cr =>
      cases rest with
      | nil => rfl
      | cons b rest =>
        have hb : b ≠ 10 := by simpa using hcr rfl
        simp [takeEnding, LineEnding.octets, hb]
    | lf => rfl
    | crlf => rfl
  have hstop : ∀ b ∈ (ending.octets ++ rest).head?, inLine b = false := by
    cases ending with
    | none => simp [hnone rfl, LineEnding.octets]
    | cr | lf | crlf => simp [LineEnding.octets, inLine]
  have htake : (ending.octets ++ rest).takeWhile inLine = [] := by
    cases hbehind : ending.octets ++ rest with
    | nil => rfl
    | cons b behind => simp [hstop b (by simp [hbehind])]
  have hdrop : (ending.octets ++ rest).dropWhile inLine = ending.octets ++ rest := by
    cases hbehind : ending.octets ++ rest with
    | nil => rfl
    | cons b behind => simp [hstop b (by simp [hbehind])]
  simp only [takeLine, Line.octets, List.append_assoc, List.dropWhile_append_of_pos htext,
    List.takeWhile_append_of_pos htext, htake, hdrop, hending, List.append_nil]

/-- What holds of the empty file, and of a file if it holds of what follows the first line, holds
of every file. -/
@[elab_as_elim]
theorem induction_on_lines {motive : Bytes → Prop} (nil : motive [])
    (line : ∀ bytes, bytes ≠ [] → motive (takeLine bytes).2 → motive bytes) (bytes : Bytes) :
    motive bytes := by
  induction hlength : bytes.length using Nat.strongRecOn generalizing bytes with
  | ind n ih =>
    by_cases h : bytes = []
    · exact h ▸ nil
    · exact line bytes h (ih _ (hlength ▸ length_nextLine_lt h) _ rfl)

theorem linesFrom_eq (done : List Line) (bytes : Bytes) :
    linesFrom done bytes = done.reverse ++ lines bytes := by
  induction bytes using induction_on_lines generalizing done with
  | nil => simp [lines, linesFrom]
  | line bytes h ih =>
    obtain ⟨b, rest, rfl⟩ := List.exists_cons_of_ne_nil h
    rw [lines, linesFrom, linesFrom, ih, ih [_]]
    simp

theorem lines_nil : lines [] = [] := by
  simp [lines, linesFrom]

/-- A file is its first line and the lines of what follows. -/
theorem lines_of_ne_nil {bytes : Bytes} (h : bytes ≠ []) :
    lines bytes = (takeLine bytes).1 :: lines (takeLine bytes).2 := by
  obtain ⟨b, rest, rfl⟩ := List.exists_cons_of_ne_nil h
  rw [lines, linesFrom, linesFrom_eq]
  simp

theorem Line.octets_ne_nil {line : Line} (h : line.ending = .none → line.text ≠ []) :
    line.octets ≠ [] := by
  obtain ⟨text, ending⟩ := line
  cases ending with
  | none => simpa [Line.octets, LineEnding.octets] using h rfl
  | cr | lf | crlf => simp [Line.octets, LineEnding.octets]

/-- The first of separated lines is taken off the others. -/
theorem Separated.takeLine_linesOctets {line : Line} {rest : List Line}
    (h : Separated (line :: rest)) :
    takeLine (linesOctets (line :: rest)) = (line, linesOctets rest) := by
  have hnone : line.ending = .none → linesOctets rest = [] := by
    intro hending
    by_contra hrest
    exact h.ending_ne_none (by rintro rfl; exact hrest rfl) hending
  rw [linesOctets_cons]
  exact takeLine_append (h.inLine line List.mem_cons_self) hnone h.head?_ne_lf

/-- Separated lines are read back. -/
theorem lines_linesOctets {ls : List Line} (h : Separated ls) : lines (linesOctets ls) = ls := by
  induction ls with
  | nil => exact lines_nil
  | cons line rest ih =>
    have hoctets := Line.octets_ne_nil (h.full line List.mem_cons_self)
    have hne : linesOctets (line :: rest) ≠ [] := by
      rw [linesOctets_cons]
      exact List.append_ne_nil_of_left_ne_nil hoctets _
    have hrest : Separated rest := ⟨h.of_cons, (List.pairwise_cons.1 h.ended).2⟩
    rw [lines_of_ne_nil hne, h.takeLine_linesOctets, ih hrest]

/-! ### The lines of a file are separated -/

/-- Behind octets of a line there is the end of the file or a line ending. -/
theorem takeEnding_dropWhile (bytes : Bytes) :
    ((takeEnding (bytes.dropWhile inLine)).1 = .none → bytes.dropWhile inLine = []) ∧
    ((takeEnding (bytes.dropWhile inLine)).1 = .cr →
      (takeEnding (bytes.dropWhile inLine)).2.head? ≠ some 10) := by
  cases hdrop : bytes.dropWhile inLine with
  | nil => simp [takeEnding]
  | cons b rest =>
    have hb : inLine b = false := by
      have hhead := List.head?_dropWhile_not inLine bytes
      simpa [hdrop] using hhead
    obtain rfl | rfl := inLine_eq_false_iff.1 hb
    · cases rest with
      | nil => simp [takeEnding]
      | cons c rest =>
        by_cases hc : c = 10
        · simp [takeEnding, hc]
        · simp [takeEnding, hc]
    · simp [takeEnding]

theorem linesOctets_lines (bytes : Bytes) : linesOctets (lines bytes) = bytes := by
  induction bytes using induction_on_lines with
  | nil => rw [lines_nil, linesOctets_nil]
  | line bytes h ih => rw [lines_of_ne_nil h, linesOctets_cons, ih, takeLine_octets]

theorem Separated.cons {line : Line} {ls : List Line} (hls : Separated ls)
    (htext : ∀ b ∈ line.text, Manifest.inLine b = true)
    (hnone : line.ending = .none → ls = [] ∧ line.text ≠ [])
    (hcr : line.ending = .cr → (linesOctets ls).head? ≠ some 10) : Separated (line :: ls) := by
  refine ⟨hls.toUnjoined.cons htext (fun h => (hnone h).2) hcr, ?_⟩
  refine List.pairwise_cons.2 ⟨fun next hnext h => ?_, hls.ended⟩
  simp [(hnone h).1] at hnext

theorem separated_lines (bytes : Bytes) : Separated (lines bytes) := by
  induction bytes using induction_on_lines with
  | nil =>
    rw [lines_nil]
    exact Separated.nil
  | line bytes h ih =>
    obtain ⟨hnone, hcr⟩ := takeEnding_dropWhile bytes
    rw [lines_of_ne_nil h]
    refine ih.cons (List.all_eq_true.1 List.all_takeWhile) (fun hending => ?_) ?_
    · have hdrop := hnone hending
      have htext : bytes.takeWhile inLine = bytes := by
        simpa [hdrop] using List.takeWhile_append_dropWhile (p := inLine) (l := bytes)
      constructor
      · simp [takeLine, hdrop, takeEnding, lines_nil]
      · simpa [takeLine, htext] using h
    · rw [linesOctets_lines]
      exact hcr

/-- Separated lines are the lines of the file they make up, and of no other. -/
theorem lines_eq_iff {bytes : Bytes} {ls : List Line} :
    lines bytes = ls ↔ Separated ls ∧ linesOctets ls = bytes := by
  constructor
  · rintro rfl
    exact ⟨separated_lines bytes, linesOctets_lines bytes⟩
  · rintro ⟨h, rfl⟩
    exact lines_linesOctets h

/-! ### Lines as they may be laid out -/

theorem LaidOut.of_cons {line : Line} {ls : List Line} (h : LaidOut (line :: ls)) : LaidOut ls :=
  ⟨h.toUnjoined.of_cons, (List.pairwise_cons.1 h.ended).2⟩

/-- Empty lines that are laid out behind a line without an ending are separated if the first of them
is joined with it. -/
theorem LaidOut.separated_joined {line next : Line} {more : List Line}
    (h : LaidOut (line :: next :: more)) (hnone : line.ending = .none) :
    Separated (⟨line.text, next.ending⟩ :: more) ∧ ∀ later ∈ next :: more, later.text = [] := by
  have hblank : ∀ later ∈ next :: more, later.text = [] :=
    fun later hlater => (List.pairwise_cons.1 h.ended).1 later hlater hnone
  have hending : ∀ later ∈ next :: more, later.ending ≠ .none :=
    fun later hlater hlast =>
      h.full later (List.mem_cons_of_mem _ hlater) hlast (hblank later hlater)
  obtain ⟨hnext, hmore⟩ := List.forall_mem_cons.1 hending
  have hjoined : Unjoined (⟨line.text, next.ending⟩ :: more) :=
    h.of_cons.of_cons.cons (h.inLine line List.mem_cons_self) (fun hlast => absurd hlast hnext)
      h.of_cons.head?_ne_lf
  refine ⟨⟨hjoined, List.pairwise_cons.2 ⟨fun _ _ => hnext, ?_⟩⟩, hblank⟩
  exact List.pairwise_of_forall_mem_list fun later hlater _ _ => hmore later hlater

/-- Lines that are laid out are read back but for empty ones at the end. -/
theorem LaidOut.exists_separated {ls : List Line} (h : LaidOut ls) :
    ∃ found lost, Separated found ∧ linesOctets found = linesOctets ls ∧
      ls.map Line.text = found.map Line.text ++ List.replicate lost [] := by
  induction ls with
  | nil => exact ⟨[], 0, Separated.nil, rfl, rfl⟩
  | cons line rest ih =>
    have htext := h.inLine line List.mem_cons_self
    by_cases hnone : line.ending = .none
    · cases rest with
      | nil =>
        have hfull := h.full line List.mem_cons_self
        exact ⟨[line], 0, Separated.nil.cons htext (fun hlast => ⟨rfl, hfull hlast⟩) (by simp), rfl,
          by simp⟩
      | cons next more =>
        obtain ⟨hseparated, hblank⟩ := h.separated_joined hnone
        obtain ⟨hnext, hmore⟩ := List.forall_mem_cons.1 hblank
        have htexts : more.map Line.text = List.replicate more.length [] := by
          rw [List.map_eq_replicate_iff]
          exact hmore
        -- The line is found with the ending of the empty one, and one empty line fewer behind it.
        refine ⟨⟨line.text, next.ending⟩ :: more, 1, hseparated, ?_, ?_⟩
        · simp [Line.octets, hnone, hnext, LineEnding.octets]
        · simp only [List.map_cons, hnext, htexts, List.cons_append,
            List.replicate_append_replicate, List.cons.injEq, true_and]
          rfl
    · obtain ⟨found, lost, hseparated, hoctets, htexts⟩ := ih h.of_cons
      refine ⟨line :: found, lost, hseparated.cons htext (fun hlast => absurd hlast hnone) ?_, ?_,
        ?_⟩
      · rw [hoctets]
        exact h.head?_ne_lf
      · rw [linesOctets_cons, linesOctets_cons, hoctets]
      · rw [List.map_cons, List.map_cons, htexts, List.cons_append]

end JarSigners.Manifest
