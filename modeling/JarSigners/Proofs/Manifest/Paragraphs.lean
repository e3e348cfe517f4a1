import JarSigners.Proofs.Manifest.Lines
import Mathlib.Data.List.Forall2

/-!
# How lines fall into paragraphs

A paragraph is a longest run of lines without an empty one, and it owns the octets of these lines
and of the empty line behind them. So the paragraphs of a file are known from its numbered lines
(`map_lines_paragraphs`), each of them is the only one of the octets it owns
(`exists_of_mem_paragraphsFrom`), and behind an empty line everything begins anew
(`paragraphsFrom_append_blank`).
-/

set_option autoImplicit false

namespace JarSigners.Manifest

/-! ### Numbered lines -/

/-- Lines with their numbers, when some come before. -/
def numbered (before : Nat) : List Bytes → List NumberedLine
  | [] => []
  | text :: texts => ⟨before + 1, text⟩ :: numbered (before + 1) texts

theorem numbered_append (before : Nat) (first second : List Bytes) :
    numbered before (first ++ second) =
      numbered before first ++ numbered (before + first.length) second := by
  induction first generalizing before with
  | nil => rfl
  | cons text first ih =>
    rw [List.cons_append, numbered, numbered, ih, List.cons_append, List.length_cons,
      Nat.add_assoc, Nat.add_comm 1]

@[simp] theorem map_text_numbered (before : Nat) (texts : List Bytes) :
    (numbered before texts).map NumberedLine.text = texts := by
  induction texts generalizing before with
  | nil => rfl
  | cons text texts ih => rw [numbered, List.map_cons, ih]

theorem text_mem_of_mem_numbered {before : Nat} {texts : List Bytes} {line : NumberedLine}
    (h : line ∈ numbered before texts) : line.text ∈ texts := by
  have hmem := List.mem_map_of_mem (f := NumberedLine.text) h
  rwa [map_text_numbered] at hmem

@[simp] theorem numbered_eq_nil_iff {before : Nat} {texts : List Bytes} :
    numbered before texts = [] ↔ texts = [] := by
  cases texts <;> simp [numbered]

/-- The lines of a file with their numbers. -/
def numberedLines (bytes : Bytes) : List NumberedLine :=
  numbered 0 ((lines bytes).map Line.text)

/-! ### Runs of lines -/

/-- What holds of every run without blanks, and of a run, a blank and the rest if it holds of the
rest, holds of every list. -/
@[elab_as_elim]
theorem induction_on_runs {α : Type} {p : α → Prop} {motive : List α → Prop}
    (full : ∀ run, (∀ x ∈ run, ¬ p x) → motive run)
    (closed : ∀ run blank rest, (∀ x ∈ run, ¬ p x) → p blank → motive rest →
      motive (run ++ blank :: rest))
    (xs : List α) : motive xs := by
  -- The run begun goes along until a blank closes it.
  suffices h : ∀ run, (∀ x ∈ run, ¬ p x) → motive (run ++ xs) by
    simpa using h [] (by simp)
  induction xs with
  | nil => exact fun run hrun => by simpa using full run hrun
  | cons x xs ih =>
    intro run hrun
    by_cases hx : p x
    · exact closed run x xs hrun hx (by simpa using ih [] (by simp))
    · have hlonger : ∀ y ∈ run ++ [x], ¬ p y := by
        simpa [or_imp, forall_and] using ⟨hrun, hx⟩
      simpa using ih (run ++ [x]) hlonger

/-- The longest runs of lines without an empty one. -/
def runs (ls : List NumberedLine) : List (List NumberedLine) :=
  (ls.splitOnP fun line => line.text.isEmpty).filter fun run => !run.isEmpty

@[simp] theorem runs_nil : runs [] = [] := by
  simp [runs]

theorem runs_of_full {run : List NumberedLine} (hne : run ≠ [])
    (hrun : ∀ line ∈ run, line.text ≠ []) : runs run = [run] := by
  have hsplit : run.splitOnP (fun line => line.text.isEmpty) = [run] :=
    List.splitOnP_eq_singleton fun line hline => by simpa using hrun line hline
  simp [runs, hsplit, hne]

/-- An empty line parts the runs. -/
theorem runs_append_blank {blank : NumberedLine} (hblank : blank.text = [])
    (front back : List NumberedLine) : runs (front ++ blank :: back) = runs front ++ runs back := by
  have hempty : blank.text.isEmpty = true := by simp [hblank]
  have hsplit := List.splitOnP_append_cons (p := fun line : NumberedLine => line.text.isEmpty)
    front back hempty
  rw [runs, hsplit, List.filter_append]
  rfl

theorem runs_of_blank {blanks : List NumberedLine} (hblanks : ∀ blank ∈ blanks, blank.text = []) :
    runs blanks = [] := by
  induction blanks with
  | nil => exact runs_nil
  | cons blank blanks ih =>
    obtain ⟨hblank, hrest⟩ := List.forall_mem_cons.1 hblanks
    have hsplit := runs_append_blank hblank [] blanks
    rwa [List.nil_append, runs_nil, List.nil_append, ih hrest] at hsplit

/-- Empty lines at the end make no difference. -/
theorem runs_append_blanks {blanks : List NumberedLine}
    (hblanks : ∀ blank ∈ blanks, blank.text = []) (front : List NumberedLine) :
    runs (front ++ blanks) = runs front := by
  cases blanks with
  | nil => rw [List.append_nil]
  | cons blank blanks =>
    obtain ⟨hblank, hrest⟩ := List.forall_mem_cons.1 hblanks
    rw [runs_append_blank hblank, runs_of_blank hrest, List.append_nil]

/-- Lines without an empty one are their only run. -/
theorem eq_of_mem_runs {full run : List NumberedLine} (hfull : ∀ line ∈ full, line.text ≠ [])
    (h : run ∈ runs full) : run ≠ [] ∧ run = full := by
  by_cases hempty : full = []
  · simp [hempty] at h
  · rw [runs_of_full hempty hfull, List.mem_singleton] at h
    exact ⟨h ▸ hempty, h⟩

theorem full_of_mem_runs {ls run : List NumberedLine} (h : run ∈ runs ls) :
    run ≠ [] ∧ ∀ line ∈ run, line.text ≠ [] := by
  induction ls using induction_on_runs (p := fun line : NumberedLine => line.text = []) with
  | full full hfull =>
    obtain ⟨hne, rfl⟩ := eq_of_mem_runs hfull h
    exact ⟨hne, hfull⟩
  | closed full blank rest hfull hblank ih =>
    rw [runs_append_blank hblank, List.mem_append] at h
    rcases h with hfirst | hlater
    · obtain ⟨hne, rfl⟩ := eq_of_mem_runs hfull hfirst
      exact ⟨hne, hfull⟩
    · exact ih hlater

theorem subset_of_mem_runs {ls run : List NumberedLine} (h : run ∈ runs ls) : run ⊆ ls := by
  induction ls using induction_on_runs (p := fun line : NumberedLine => line.text = []) with
  | full full hfull =>
    rw [(eq_of_mem_runs hfull h).2]
    exact List.Subset.refl _
  | closed full blank rest hfull hblank ih =>
    rw [runs_append_blank hblank, List.mem_append] at h
    rcases h with hfirst | hlater
    · rw [(eq_of_mem_runs hfull hfirst).2]
      exact List.subset_append_left _ _
    · exact List.subset_append_of_subset_right _ (List.subset_cons_of_subset _ (ih hlater))

/-! ### Sorting lines -/

namespace Sorted

/-- What has been finished before does not matter to the lines that follow. -/
theorem foldl_take_over (ls : List Line) (s : Sorted) (done : List Paragraph) :
    ls.foldl take { s with done := s.done ++ done } =
      { ls.foldl take s with done := (ls.foldl take s).done ++ done } := by
  induction ls generalizing s with
  | nil => rfl
  | cons line ls ih =>
    rw [List.foldl_cons, List.foldl_cons, ← ih]
    congr 1
    unfold take close
    split
    · by_cases hbegun : s.begun.isEmpty = true
      · simp [hbegun]
      · simp [hbegun]
    · rfl

theorem close_over (s : Sorted) (done : List Paragraph) :
    close { s with done := s.done ++ done } = s.close ++ done := by
  unfold close
  split <;> simp

theorem offset_foldl_take (ls : List Line) (s : Sorted) :
    (ls.foldl take s).offset = s.offset + (linesOctets ls).length := by
  induction ls generalizing s with
  | nil => rfl
  | cons line ls ih =>
    have hstep : (s.take line).offset = s.offset + line.octets.length := by
      unfold take
      split <;> rfl
    rw [List.foldl_cons, ih, hstep, linesOctets_cons, List.length_append]
    omega

theorem count_foldl_take (ls : List Line) (s : Sorted) :
    (ls.foldl take s).count = s.count + ls.length := by
  induction ls generalizing s with
  | nil => rfl
  | cons line ls ih =>
    have hstep : (s.take line).count = s.count + 1 := by
      unfold take
      split <;> rfl
    rw [List.foldl_cons, ih, hstep, List.length_cons]
    omega

/-- An empty line finishes the paragraph begun. -/
theorem take_blank {blank : Line} (hblank : blank.text = []) (s : Sorted) :
    s.take blank = ⟨s.offset + blank.octets.length, s.count + 1, s.offset + blank.octets.length, [],
      close { s with offset := s.offset + blank.octets.length }⟩ := by
  simp [take, hblank]

theorem exists_foldl_take_blank {blank : Line} (hblank : blank.text = []) (front : List Line)
    (s : Sorted) :
    ∃ done, (front ++ [blank]).foldl take s =
      ⟨s.offset + (linesOctets (front ++ [blank])).length, s.count + (front ++ [blank]).length,
        s.offset + (linesOctets (front ++ [blank])).length, [], done⟩ := by
  refine ⟨(front.foldl take s |>.take blank).done, ?_⟩
  rw [List.foldl_append, List.foldl_cons, List.foldl_nil, take_blank hblank, offset_foldl_take,
    count_foldl_take]
  simp [Nat.add_assoc]

/-- Lines that are not empty go to the paragraph begun. -/
theorem foldl_take_full {run : List Line} (hrun : ∀ line ∈ run, line.text ≠ []) (s : Sorted) :
    run.foldl take s =
      { s with
        offset := s.offset + (linesOctets run).length
        count := s.count + run.length
        begun := (numbered s.count (run.map Line.text)).reverse ++ s.begun } := by
  induction run generalizing s with
  | nil => rfl
  | cons line run ih =>
    obtain ⟨hline, hrest⟩ := List.forall_mem_cons.1 hrun
    have hstep : s.take line =
        { s with
          offset := s.offset + line.octets.length
          count := s.count + 1
          begun := ⟨s.count + 1, line.text⟩ :: s.begun } := by
      simp [take, hline]
    rw [List.foldl_cons, hstep, ih hrest]
    simp [numbered]
    omega

end Sorted

/-- The paragraphs of some lines, when octets and lines come before. -/
def paragraphsFrom (offset count : Nat) (ls : List Line) : List Paragraph :=
  (ls.foldl Sorted.take ⟨offset, count, offset, [], []⟩).close.reverse

theorem paragraphs_eq (bytes : Bytes) : paragraphs bytes = paragraphsFrom 0 0 (lines bytes) :=
  rfl

/-- Lines that are not empty, with an empty one behind them or at the end, are one paragraph. -/
theorem paragraphsFrom_run {run closing : List Line} (hrun : ∀ line ∈ run, line.text ≠ [])
    (hclosing : closing = [] ∨ ∃ blank : Line, blank.text = [] ∧ closing = [blank])
    (offset count : Nat) :
    paragraphsFrom offset count (run ++ closing) =
      if run = [] then []
      else [⟨numbered count (run.map Line.text), offset,
        offset + (linesOctets (run ++ closing)).length⟩] := by
  rw [paragraphsFrom, List.foldl_append, Sorted.foldl_take_full hrun]
  obtain rfl | ⟨blank, hblank, rfl⟩ := hclosing
  · by_cases hempty : run = []
    · simp [Sorted.close, hempty]
    · simp [Sorted.close, hempty]
  · rw [List.foldl_cons, List.foldl_nil, Sorted.take_blank hblank]
    by_cases hempty : run = []
    · simp [Sorted.close, hempty]
    · simp [Sorted.close, hempty, Nat.add_assoc]

/-- Behind an empty line everything begins anew. -/
theorem paragraphsFrom_append_blank {blank : Line} (hblank : blank.text = [])
    (front back : List Line) (offset count : Nat) :
    paragraphsFrom offset count (front ++ blank :: back) =
      paragraphsFrom offset count (front ++ [blank]) ++
        paragraphsFrom (offset + (linesOctets (front ++ [blank])).length)
          (count + (front ++ [blank]).length) back := by
  have hsplit : front ++ blank :: back = (front ++ [blank]) ++ back := by simp
  obtain ⟨done, hstate⟩ :=
    Sorted.exists_foldl_take_blank hblank front ⟨offset, count, offset, [], []⟩
  have hrest := Sorted.foldl_take_over back ⟨offset + (linesOctets (front ++ [blank])).length,
    count + (front ++ [blank]).length, offset + (linesOctets (front ++ [blank])).length, [], []⟩
    done
  rw [List.nil_append] at hrest
  rw [hsplit, paragraphsFrom, paragraphsFrom, paragraphsFrom, List.foldl_append, hstate, hrest,
    Sorted.close_over, List.reverse_append]
  rfl

/-- Every paragraph is a run of lines, and it owns the empty line behind them. There is one unless
the run is the last of the lines. -/
theorem exists_of_mem_paragraphsFrom {ls : List Line} {offset count : Nat} {p : Paragraph}
    (hp : p ∈ paragraphsFrom offset count ls) :
    ∃ front run closing back before, ls = front ++ (run ++ closing) ++ back ∧ run ≠ [] ∧
      (∀ line ∈ run, line.text ≠ []) ∧
      (closing = [] ∧ back = [] ∨ ∃ blank : Line, blank.text = [] ∧ closing = [blank]) ∧
      p = ⟨numbered before (run.map Line.text), offset + (linesOctets front).length,
        offset + (linesOctets front).length + (linesOctets (run ++ closing)).length⟩ := by
  induction ls using induction_on_runs (p := fun line : Line => line.text = [])
    generalizing offset count with
  | full run hrun =>
    have hone := paragraphsFrom_run hrun (Or.inl rfl) offset count
    rw [List.append_nil] at hone
    rw [hone] at hp
    split at hp
    · simp at hp
    next hne =>
      refine ⟨[], run, [], [], count, by simp, hne, hrun, Or.inl ⟨rfl, rfl⟩, ?_⟩
      simpa using hp
  | closed run blank rest hrun hblank ih =>
    have hclosing : [blank] = [] ∨ ∃ b : Line, b.text = [] ∧ [blank] = [b] :=
      Or.inr ⟨blank, hblank, rfl⟩
    rw [paragraphsFrom_append_blank hblank, List.mem_append] at hp
    obtain hp | hp := hp
    · rw [paragraphsFrom_run hrun hclosing] at hp
      split at hp
      · simp at hp
      next hne =>
        refine ⟨[], run, [blank], rest, count, by simp, hne, hrun, Or.inr ⟨blank, hblank, rfl⟩, ?_⟩
        simpa using hp
    · obtain ⟨front, run', closing, back, before, rfl, hne, hrun', hclosing', rfl⟩ := ih hp
      refine ⟨run ++ blank :: front, run', closing, back, before, by simp, hne, hrun', hclosing',
        ?_⟩
      simp only [linesOctets_append, linesOctets_cons, linesOctets_nil, List.length_append,
        List.append_nil, Paragraph.mk.injEq, true_and]
      omega

/-- Lines that are not empty are one run, if there are any. -/
theorem runs_numbered {run : List Line} (hrun : ∀ line ∈ run, line.text ≠ []) (before : Nat) :
    runs (numbered before (run.map Line.text)) =
      if run = [] then [] else [numbered before (run.map Line.text)] := by
  by_cases hempty : run = []
  · simp [hempty, numbered]
  · rw [if_neg hempty, runs_of_full (by simpa using hempty)]
    intro line hline
    obtain ⟨l, hl, htext⟩ := List.mem_map.1 (text_mem_of_mem_numbered hline)
    exact htext ▸ hrun l hl

/-- The lines of the paragraphs are the runs of numbered lines. -/
theorem map_lines_paragraphsFrom (ls : List Line) (offset count : Nat) :
    (paragraphsFrom offset count ls).map Paragraph.lines =
      runs (numbered count (ls.map Line.text)) := by
  induction ls using induction_on_runs (p := fun line : Line => line.text = [])
    generalizing offset count with
  | full run hrun =>
    have hone := paragraphsFrom_run hrun (Or.inl rfl) offset count
    rw [List.append_nil] at hone
    rw [hone, runs_numbered hrun, apply_ite (List.map Paragraph.lines)]
    rfl
  | closed run blank rest hrun hblank ih =>
    have hone := paragraphsFrom_run hrun (Or.inr ⟨blank, hblank, rfl⟩) offset count
    rw [paragraphsFrom_append_blank hblank, hone, List.map_append, ih, List.map_append,
      List.map_cons, numbered_append, numbered, runs_append_blank (by exact hblank),
      runs_numbered hrun, apply_ite (List.map Paragraph.lines)]
    simp [Nat.add_assoc]

/-- However lines are laid out, their runs are found. -/
theorem runs_numberedLines {ls : List Line} (h : LaidOut ls) :
    runs (numberedLines (linesOctets ls)) = runs (numbered 0 (ls.map Line.text)) := by
  obtain ⟨found, lost, hseparated, hoctets, htexts⟩ := h.exists_separated
  have hblanks : ∀ blank ∈ numbered (0 + (found.map Line.text).length) (List.replicate lost []),
      blank.text = [] := by
    intro blank hblank
    exact List.eq_of_mem_replicate (text_mem_of_mem_numbered hblank)
  rw [numberedLines, ← hoctets, lines_linesOctets hseparated, htexts, numbered_append,
    runs_append_blanks hblanks]

theorem map_lines_paragraphs (bytes : Bytes) :
    (paragraphs bytes).map Paragraph.lines = runs (numberedLines bytes) :=
  map_lines_paragraphsFrom (lines bytes) 0 0

end JarSigners.Manifest
