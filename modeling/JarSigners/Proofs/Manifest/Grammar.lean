import JarSigners.Proofs.Manifest.Headers
import JarSigners.Proofs.Manifest.Sections

/-!
# The grammar of manifests

A file is well formed if no line continues an empty one, every line that is not a continuation
makes, together with the continuations behind it, a header that states an attribute, and every run
of lines but the first states a name. Reading accepts exactly these files and finds their
attributes. Of any other file it reports the line with the smallest number that is at fault, and
that a name is missing only where no line is (`reading_follows_the_grammar`).
-/

set_option autoImplicit false

namespace JarSigners.Manifest

open Steps

/-! ### The grammar -/

/-- What the lines that begin with a space add to the line in front of them. -/
def continuation (ls : List NumberedLine) : Bytes :=
  (ls.takeWhile NumberedLine.isContinuation).flatMap fun line => line.text.drop 1

/-- The headers of a file: each line that is neither empty nor a continuation, with the
continuations behind it. -/
def headers : List NumberedLine → List Header
  | [] => []
  | line :: after =>
    if line.text = [] ∨ line.isContinuation then headers after
    else ⟨line.number, line.text ++ continuation after⟩ :: headers after

/-- A line that begins with a space behind an empty line; the beginning of the file is like an empty
line before it. -/
inductive Stray : (previous : Bytes) → List NumberedLine → NumberedLine → Prop
  | here {line : NumberedLine} {after : List NumberedLine} (h : line.isContinuation = true) :
    Stray [] (line :: after) line
  | later {previous : Bytes} {first line : NumberedLine} {after : List NumberedLine}
    (h : Stray first.text after line) : Stray previous (first :: after) line

/-- A run of lines has a header with the key of a name. -/
def StatesName (run : List NumberedLine) : Prop :=
  ∃ h ∈ headers run, ∃ a, h.States a ∧ Text.alike a.1 "Name" = true

/-- A well-formed file. -/
structure Grammatical (ls : List NumberedLine) : Prop where
  attached : ∀ line, ¬ Stray [] ls line
  stated : ∀ h ∈ headers ls, ∃ text, Text.utf8 text = h.octets ∧ [':', ' '] <:+: text.toList
  named : ∀ run ∈ (runs ls).tail, StatesName run

/-- What is wrong with a line: it continues none, or it is the first of a header that states
nothing. -/
inductive LineDefect (ls : List NumberedLine) : Nat → ManifestDefect → Prop
  | stray {line : NumberedLine} (h : Stray [] ls line) :
    LineDefect ls line.number (.strayContinuation line.number)
  | header {h : Header} {defect : ManifestDefect} (hmem : h ∈ headers ls)
    (hspoiled : h.Spoiled defect) : LineDefect ls h.number defect

/-- What is wrong with a file that is not well formed: with the first line that is at fault, or, if
none is, that a run of lines has no name. -/
inductive FirstDefect (ls : List NumberedLine) : ManifestDefect → Prop
  | line {n : Nat} {defect : ManifestDefect} (h : LineDefect ls n defect)
    (hfirst : ∀ k other, LineDefect ls k other → n ≤ k) : FirstDefect ls defect
  | unnamed (hnone : ∀ n defect, ¬ LineDefect ls n defect) {run : List NumberedLine}
    (hrun : run ∈ (runs ls).tail) (hname : ¬ StatesName run) : FirstDefect ls .unnamedSection

/-! ### Findings in file order -/

/-- The stray lines and the headers of a file by their numbers, with what becomes of them. -/
def findings (previous : Bytes) :
    List NumberedLine → List (Nat × Except ManifestDefect Attribute)
  | [] => []
  | line :: after =>
    if line.text = [] then findings [] after
    else if line.isContinuation then
      if previous = [] then
        (line.number, .error (.strayContinuation line.number)) :: findings line.text after
      else findings line.text after
    else
      (line.number, Header.attribute? ⟨line.number, line.text ++ continuation after⟩) ::
        findings line.text after

theorem isContinuation_of_text_nil {line : NumberedLine} (h : line.text = []) :
    line.isContinuation = false := by
  simp [NumberedLine.isContinuation, h]

theorem continuation_cons (line : NumberedLine) (after : List NumberedLine) :
    continuation (line :: after) =
      if line.isContinuation then line.text.drop 1 ++ continuation after else [] := by
  unfold continuation
  rw [List.takeWhile_cons]
  split
  · rw [List.flatMap_cons]
  · rfl

theorem continuation_append_blank {blank : NumberedLine} (hblank : blank.text = [])
    (front back : List NumberedLine) :
    continuation (front ++ blank :: back) = continuation front := by
  induction front with
  | nil =>
    rw [List.nil_append, continuation_cons, isContinuation_of_text_nil hblank]
    rfl
  | cons line front ih => rw [List.cons_append, continuation_cons, continuation_cons, ih]

/-- An empty line parts the findings. -/
theorem findings_append_blank {blank : NumberedLine} (hblank : blank.text = [])
    (front back : List NumberedLine) (previous : Bytes) :
    findings previous (front ++ blank :: back) = findings previous front ++ findings [] back := by
  induction front generalizing previous with
  | nil => simp [findings, hblank]
  | cons line front ih =>
    simp only [List.cons_append, findings, ih, continuation_append_blank hblank]
    split
    · rfl
    · split
      · split
        · rfl
        · rfl
      · rfl

/-- Lines that are not empty join to their headers. -/
theorem joined_full {run : List NumberedLine} (hrun : ∀ line ∈ run, line.text ≠ []) :
    joined run = (continuation run, headers run) := by
  induction run with
  | nil => rfl
  | cons line run ih =>
    obtain ⟨hline, hrest⟩ := List.forall_mem_cons.1 hrun
    rw [joined_cons, ih hrest, headers, continuation_cons]
    by_cases h : line.isContinuation = true
    · simp [h]
    · simp [h, hline]

/-- Within a run only headers are found behind the first line. -/
theorem findings_full {run : List NumberedLine} (hrun : ∀ line ∈ run, line.text ≠ [])
    {previous : Bytes} (hprevious : previous ≠ []) :
    findings previous run = (headers run).map fun h => (h.number, h.attribute?) := by
  induction run generalizing previous with
  | nil => rfl
  | cons line run ih =>
    obtain ⟨hline, hrest⟩ := List.forall_mem_cons.1 hrun
    rw [findings, headers, ih hrest hline]
    by_cases h : line.isContinuation = true
    · simp [h, hline, hprevious]
    · simp [h, hline]

/-- A run of lines fails to state attributes by the first finding that fails. -/
theorem failure?_attributes? {run : List NumberedLine} (hne : run ≠ [])
    (hrun : ∀ line ∈ run, line.text ≠ []) :
    failure? (attributes? run) = (findings [] run).findSome? fun found => failure? found.2 := by
  obtain ⟨first, rest, rfl⟩ := List.exists_cons_of_ne_nil hne
  obtain ⟨hfirst, hrest⟩ := List.forall_mem_cons.1 hrun
  rw [attributes?_cons, findings, if_neg hfirst]
  split
  · rfl
  next hcontinues =>
    rw [failure?_mapM, joined_full hrun, headers, if_neg (by simp [hfirst, hcontinues]),
      findings_full hrest hfirst]
    simp only [List.findSome?_cons, List.findSome?_map, Function.comp_def]

theorem failure?_mapM_attributes? (ls : List NumberedLine) :
    failure? ((runs ls).mapM attributes?) =
      (findings [] ls).findSome? fun found => failure? found.2 := by
  rw [failure?_mapM]
  have hone : ∀ run : List NumberedLine, (∀ line ∈ run, line.text ≠ []) →
      ((runs run).findSome? fun run => failure? (attributes? run)) =
        (findings [] run).findSome? fun found => failure? found.2 := by
    intro run hrun
    by_cases hempty : run = []
    · simp [hempty, findings]
    · simp [runs_of_full hempty hrun, failure?_attributes? hempty hrun]
  induction ls using induction_on_runs (p := fun line : NumberedLine => line.text = []) with
  | full run hrun => exact hone run hrun
  | closed run blank rest hrun hblank ih =>
    rw [runs_append_blank hblank, findings_append_blank hblank, List.findSome?_append,
      List.findSome?_append, hone run hrun, ih]

theorem numbers_findings (previous : Bytes) (ls : List NumberedLine) :
    ((findings previous ls).map Prod.fst).Sublist (ls.map NumberedLine.number) := by
  induction ls generalizing previous with
  | nil => exact .slnil
  | cons line after ih =>
    unfold findings
    split
    · exact (ih _).cons _
    · split
      · split
        · exact (ih _).cons_cons _
        · exact (ih _).cons _
      · exact (ih _).cons_cons _

theorem number_numbered (before : Nat) (texts : List Bytes) :
    (numbered before texts).map NumberedLine.number = List.range' (before + 1) texts.length := by
  induction texts generalizing before with
  | nil => rfl
  | cons text texts ih => rw [numbered, List.map_cons, ih, List.length_cons, List.range'_succ]

/-- What is found of the lines of a file is found in the order of their numbers. -/
theorem pairwise_findings (bytes : Bytes) :
    ((findings [] (numberedLines bytes)).map Prod.fst).Pairwise (· < ·) := by
  have hsublist := numbers_findings [] (numberedLines bytes)
  rw [numberedLines, number_numbered] at hsublist
  exact List.Pairwise.sublist hsublist List.pairwise_lt_range'

theorem stray_cons_iff {previous : Bytes} {first line : NumberedLine} {after : List NumberedLine} :
    Stray previous (first :: after) line ↔
      (previous = [] ∧ first.isContinuation = true ∧ line = first) ∨
        Stray first.text after line := by
  constructor
  · rintro (h | h)
    · exact Or.inl ⟨rfl, h, rfl⟩
    · exact Or.inr h
  · rintro (⟨rfl, h, rfl⟩ | h)
    · exact .here h
    · exact .later h

/-- What is found are stray lines and headers. -/
theorem mem_findings_iff {previous : Bytes} {ls : List NumberedLine} {n : Nat}
    {result : Except ManifestDefect Attribute} :
    (n, result) ∈ findings previous ls ↔
      (∃ line, Stray previous ls line ∧ n = line.number ∧
        result = .error (.strayContinuation line.number)) ∨
      ∃ h ∈ headers ls, n = h.number ∧ result = h.attribute? := by
  induction ls generalizing previous with
  | nil =>
    simp only [findings, headers, List.not_mem_nil, false_and, exists_false, or_false, false_iff]
    rintro ⟨line, h, -⟩
    cases h
  | cons first after ih =>
    simp only [stray_cons_iff]
    unfold findings headers
    by_cases hblank : first.text = []
    · simp [hblank, ih, isContinuation_of_text_nil hblank]
    · by_cases hcontinues : first.isContinuation = true
      · by_cases hprevious : previous = []
        · simp [hblank, hcontinues, hprevious, ih, or_and_right, exists_or, or_assoc]
        · simp [hblank, hcontinues, hprevious, ih]
      · simp [hblank, hcontinues, ih, or_left_comm]

theorem mem_findings_error_iff {ls : List NumberedLine} {n : Nat} {defect : ManifestDefect} :
    (n, .error defect) ∈ findings [] ls ↔ LineDefect ls n defect := by
  rw [mem_findings_iff]
  constructor
  · rintro (⟨line, hstray, rfl, hdefect⟩ | ⟨h, hmem, rfl, hread⟩)
    · cases hdefect
      exact .stray hstray
    · exact .header hmem (Header.attribute?_eq_error_iff.1 hread.symm)
  · rintro (hstray | ⟨hmem, hspoiled⟩)
    · exact Or.inl ⟨_, hstray, rfl, rfl⟩
    · exact Or.inr ⟨_, hmem, rfl, (Header.attribute?_eq_error_iff.2 hspoiled).symm⟩

theorem failure?_mapM_section? (bytes : Bytes) :
    failure? ((paragraphs bytes).mapM Paragraph.section?) =
      (findings [] (numberedLines bytes)).findSome? fun found => failure? found.2 := by
  rw [← failure?_map _ (List.map Section.attributes), ← mapM_attributes?,
    failure?_mapM_attributes?]

/-- The paragraphs of a file fail to state sections as its first line that is at fault. -/
theorem mapM_section?_eq_error_iff {bytes : Bytes} {defect : ManifestDefect} :
    (paragraphs bytes).mapM Paragraph.section? = .error defect ↔
      ∃ n, LineDefect (numberedLines bytes) n defect ∧
        ∀ k other, LineDefect (numberedLines bytes) k other → n ≤ k := by
  rw [← failure?_eq_some_iff, failure?_mapM_section?,
    findSome?_failure?_iff (pairwise_findings bytes)]
  simp only [mem_findings_error_iff]

/-- They state sections if no line is at fault. -/
theorem exists_mapM_section?_iff {bytes : Bytes} :
    (∃ all, (paragraphs bytes).mapM Paragraph.section? = .ok all) ↔
      ∀ n defect, ¬ LineDefect (numberedLines bytes) n defect := by
  rw [← failure?_eq_none_iff, failure?_mapM_section?, List.findSome?_eq_none_iff]
  simp only [← mem_findings_error_iff]
  constructor
  · intro h n defect hmem
    simpa using h _ hmem
  · rintro h ⟨n, result⟩ hmem
    cases result with
    | ok a => rfl
    | error defect => exact absurd hmem (h n defect)

/-- No line is at fault if all belong to headers that state something. -/
theorem not_lineDefect_iff {ls : List NumberedLine} :
    (∀ n defect, ¬ LineDefect ls n defect) ↔ (∀ line, ¬ Stray [] ls line) ∧
      ∀ h ∈ headers ls, ∃ text, Text.utf8 text = h.octets ∧ [':', ' '] <:+: text.toList := by
  simp only [← Header.exists_states_iff]
  constructor
  · intro hnone
    refine ⟨fun line hstray => hnone _ _ (.stray hstray), fun h hmem => ?_⟩
    cases hread : h.attribute? with
    | ok a => exact ⟨a, Header.attribute?_eq_ok_iff.1 hread⟩
    | error defect =>
      exact absurd (.header hmem (Header.attribute?_eq_error_iff.1 hread)) (hnone _ _)
  · rintro ⟨hattached, hstated⟩ n defect (hstray | ⟨hmem, hspoiled⟩)
    · exact hattached _ hstray
    · obtain ⟨a, ha⟩ := hstated _ hmem
      have hread := Header.attribute?_eq_ok_iff.2 ha
      rw [Header.attribute?_eq_error_iff.2 hspoiled] at hread
      cases hread

/-! ### What is read -/

/-- The attributes of a run are those that its headers state, in order. -/
theorem states_of_attributes? {ls run : List NumberedLine} {attributes : List Attribute}
    (hrun : run ∈ runs ls) (h : attributes? run = .ok attributes) :
    List.Forall₂ Header.States (headers run) attributes := by
  obtain ⟨hne, hfull⟩ := full_of_mem_runs hrun
  obtain ⟨first, rest, rfl⟩ := List.exists_cons_of_ne_nil hne
  rw [attributes?_cons, joined_full hfull] at h
  split at h
  · cases h
  · exact (forall₂_of_mapM_eq_ok h).imp fun _ _ => Header.attribute?_eq_ok_iff.1

theorem statesName_iff {run : List NumberedLine} {s : Section}
    (h : List.Forall₂ Header.States (headers run) s.attributes) :
    StatesName run ↔ s.name?.isSome = true := by
  have hname : s.name?.isSome = true ↔ ∃ a ∈ s.attributes, Text.alike a.1 "Name" = true := by
    simp [Section.name?, Section.value?, List.find?_isSome]
  rw [hname, StatesName]
  constructor
  · rintro ⟨header, hmem, a, hstates, halike⟩
    obtain ⟨b, hb, hstates'⟩ := (exists_fellow h).1 header hmem
    exact ⟨b, hb, hstates.unique hstates' ▸ halike⟩
  · rintro ⟨a, ha, halike⟩
    obtain ⟨header, hmem, hstates⟩ := (exists_fellow h).2 a ha
    exact ⟨header, hmem, a, hstates, halike⟩

/-- The sections of a file state what its runs of lines state. -/
theorem states_of_mapM {bytes : Bytes} {all : List Section}
    (h : (paragraphs bytes).mapM Paragraph.section? = .ok all) :
    List.Forall₂ (fun run s => List.Forall₂ Header.States (headers run) s.attributes)
      (runs (numberedLines bytes)) all := by
  have hruns := mapM_attributes? bytes
  rw [h] at hruns
  have hall := forall₂_of_mapM_eq_ok hruns
  rw [List.forall₂_map_right_iff] at hall
  have hmem := (List.forall₂_and_left (p := (· ∈ runs (numberedLines bytes))) _ _).2
    ⟨fun run hrun => hrun, hall⟩
  exact hmem.imp fun run s hs => states_of_attributes? hs.1 hs.2

/-- All sections but the first have names if all runs but the first state one. -/
theorem named_iff {ls : List NumberedLine} {all : List Section}
    (h : List.Forall₂ (fun run s => List.Forall₂ Header.States (headers run) s.attributes)
      (runs ls) all) :
    (∀ s ∈ all.tail, s.name?.isSome = true) ↔ ∀ run ∈ (runs ls).tail, StatesName run := by
  have htail := List.forall₂_drop 1 h
  rw [List.drop_one, List.drop_one] at htail
  obtain ⟨hruns, hsections⟩ := exists_fellow htail
  constructor
  · intro hnamed run hrun
    obtain ⟨s, hs, hstates⟩ := hruns run hrun
    exact (statesName_iff hstates).2 (hnamed s hs)
  · intro hnamed s hs
    obtain ⟨run, hrun, hstates⟩ := hsections s hs
    exact (statesName_iff hstates).1 (hnamed run hrun)

theorem exists_ofBytes_eq_ok_iff {bytes : Bytes} :
    (∃ m, ofBytes bytes = .ok m) ↔ Grammatical (numberedLines bytes) := by
  have hread := (@exists_mapM_section?_iff bytes).trans not_lineDefect_iff
  constructor
  · rintro ⟨m, hm⟩
    obtain ⟨all, hall, hnamed, -⟩ := ofBytes_eq_ok_iff.1 hm
    obtain ⟨hattached, hstated⟩ := hread.1 ⟨all, hall⟩
    exact ⟨hattached, hstated, (named_iff (states_of_mapM hall)).1 hnamed⟩
  · rintro ⟨hattached, hstated, hnamed⟩
    obtain ⟨all, hall⟩ := hread.2 ⟨hattached, hstated⟩
    exact ⟨_, ofBytes_eq_ok_iff.2 ⟨all, hall, (named_iff (states_of_mapM hall)).2 hnamed, rfl⟩⟩

theorem ofBytes_eq_error_iff_firstDefect {bytes : Bytes} {defect : ManifestDefect} :
    ofBytes bytes = .error defect ↔ FirstDefect (numberedLines bytes) defect := by
  rw [ofBytes_eq_error_iff, mapM_section?_eq_error_iff]
  constructor
  · rintro (⟨n, hdefect, hfirst⟩ | ⟨all, hall, hunnamed, rfl⟩)
    · exact .line hdefect hfirst
    · rw [named_iff (states_of_mapM hall)] at hunnamed
      push Not at hunnamed
      obtain ⟨run, hrun, hname⟩ := hunnamed
      exact .unnamed (exists_mapM_section?_iff.1 ⟨all, hall⟩) hrun hname
  · rintro (⟨hdefect, hfirst⟩ | ⟨hnone, hrun, hname⟩)
    · exact Or.inl ⟨_, hdefect, hfirst⟩
    · obtain ⟨all, hall⟩ := exists_mapM_section?_iff.2 hnone
      refine Or.inr ⟨all, hall, fun hnamed => hname ?_, rfl⟩
      exact (named_iff (states_of_mapM hall)).1 hnamed _ hrun

/-- Reading follows the grammar. The lines of a file are the only ones that it falls into. It is
read if and only if they are well formed; then each run of lines is a section with the attributes
that its headers state, in order, and the first is the main section if it has no name. Otherwise
the defect of the first line at fault is reported, and a missing name only where no line is. -/
theorem reading_follows_the_grammar (file : String) (bytes : Bytes) :
    (∀ ls, lines bytes = ls ↔ Separated ls ∧ linesOctets ls = bytes) ∧
    ((∃ m, Manifest.read file bytes = .ok m) ↔ Grammatical (numberedLines bytes)) ∧
    (∀ m, Manifest.read file bytes = .ok m → ∃ all,
      List.Forall₂ (fun run s => List.Forall₂ Header.States (headers run) s.attributes)
        (runs (numberedLines bytes)) all ∧
      (∀ first rest, all = first :: rest → first.name? = none →
        m.main = first ∧ m.sections = rest) ∧
      ((∀ first ∈ all.head?, first.name? ≠ none) → m.main = noMain ∧ m.sections = all)) ∧
    (∀ failure, Manifest.read file bytes = .error failure ↔
      ∃ defect, failure = .malformed file defect ∧ FirstDefect (numberedLines bytes) defect) ∧
    (∀ n : Nat,
      (ManifestDefect.strayContinuation n).message = s!"line {n}: continuation without header" ∧
      (ManifestDefect.invalidUtf8 n).message = s!"line {n}: invalid UTF-8" ∧
      (ManifestDefect.invalidHeader n).message = s!"line {n}: invalid header") ∧
    ManifestDefect.unnamedSection.message = "section without Name attribute" := by
  refine ⟨fun ls => lines_eq_iff, ?_, ?_, ?_, fun n => ⟨rfl, rfl, rfl⟩, rfl⟩
  · simp only [read_eq_ok_iff, exists_ofBytes_eq_ok_iff]
  · intro m hm
    obtain ⟨all, hall, -, rfl⟩ := ofBytes_eq_ok_iff.1 (read_eq_ok_iff.1 hm)
    refine ⟨all, states_of_mapM hall, ?_, ?_⟩
    · rintro first rest rfl hname
      simp [assembled, parted, hname]
    · intro hnamed
      cases all with
      | nil => exact ⟨rfl, rfl⟩
      | cons first rest =>
        have hname := hnamed first rfl
        simp [assembled, parted, hname]
  · intro failure
    rw [read_eq_error_iff]
    simp only [ofBytes_eq_error_iff_firstDefect]
    exact exists_congr fun defect => and_comm

end JarSigners.Manifest
