import JarSigners.Manifest.Draft
import JarSigners.Proofs.Manifest.Grammar

/-!
# Lenient reading

Lenient reading knows no carriage return that ends a line by itself, and passes over what is no
header. So it agrees with strict reading on every file that strict reading accepts, if a line feed
or the end of the file stands behind each carriage return: the first section becomes the main one,
and of the others those are kept that begin with their name (`read_eq_drafted`).
-/

set_option autoImplicit false

namespace JarSigners

namespace Manifest

/-- Behind each carriage return there is a line feed or the end of the file. -/
def ReturnsPaired (octets : Bytes) : Prop :=
  octets.IsChain fun b next => b = 13 → next = 10

instance (octets : Bytes) : Decidable (ReturnsPaired octets) :=
  inferInstanceAs (Decidable (octets.IsChain _))

/-- What follows a part of a file that is paired is paired. -/
theorem ReturnsPaired.of_append {front rest : Bytes} (h : ReturnsPaired (front ++ rest)) :
    ReturnsPaired rest :=
  (List.isChain_append.1 h).2.1

/-- A line that ends with a carriage return alone is the last. -/
theorem ReturnsPaired.rest_eq_nil {front rest : Bytes} (h : ReturnsPaired (front ++ 13 :: rest))
    (hrest : rest.head? ≠ some 10) : rest = [] := by
  cases rest with
  | nil => rfl
  | cons b rest =>
    have hnext := (List.isChain_cons_cons.1 (List.isChain_append.1 h).2.1).1 rfl
    exact absurd (congrArg some hnext) hrest

/-- Other octets need nothing behind them. -/
theorem ReturnsPaired.cons {b : UInt8} {rest : Bytes} (hb : b ≠ 13) (h : ReturnsPaired rest) :
    ReturnsPaired (b :: rest) :=
  List.isChain_cons.2 ⟨fun _ _ hreturn => absurd hreturn hb, h⟩

/-- A line that is written leaves what follows paired. -/
theorem ReturnsPaired.line {text rest : Bytes} (h : ReturnsPaired rest)
    (htext : ∀ b ∈ text, inLine b = true) :
    ReturnsPaired (text ++ (ManifestDraft.lineEnd ++ rest)) := by
  induction text with
  | nil => exact List.isChain_cons_cons.2 ⟨fun _ => rfl, h.cons (by decide)⟩
  | cons b text ih =>
    obtain ⟨hb, htext⟩ := List.forall_mem_cons.1 htext
    refine (ih htext).cons ?_
    rintro rfl
    exact absurd hb (by decide)

end Manifest

namespace ManifestDraft

open Manifest

/-! ### Lines -/

/-- Octets cut at line feeds: the first line, and the others. -/
def cutAtFeeds (octets : Bytes) : Bytes × List Bytes :=
  octets.foldr (fun b (first, rest) =>
    if b = 10 then (([] : Bytes), first :: rest) else (b :: first, rest)) ([], [])

theorem looseLines_eq (octets : Bytes) :
    looseLines octets = ((cutAtFeeds octets).1 :: (cutAtFeeds octets).2).map fun line =>
      if line.getLast? = some 13 then line.dropLast else line := rfl

theorem cutAtFeeds_append {line : Bytes} (hline : ∀ b ∈ line, b ≠ 10) (rest : Bytes) :
    cutAtFeeds (line ++ rest) = (line ++ (cutAtFeeds rest).1, (cutAtFeeds rest).2) := by
  induction line with
  | nil => rfl
  | cons b line ih =>
    obtain ⟨hb, hline⟩ := List.forall_mem_cons.1 hline
    rw [List.cons_append, cutAtFeeds, List.foldr_cons, ← cutAtFeeds, ih hline]
    exact if_neg hb

/-- A line without the carriage return at its end. -/
def withoutReturn (line : Bytes) : Bytes :=
  if line.getLast? = some 13 then line.dropLast else line

theorem withoutReturn_concat (text : Bytes) : withoutReturn (text ++ [13]) = text := by
  rw [withoutReturn, if_pos List.getLast?_concat, List.dropLast_concat]

theorem withoutReturn_text {text : Bytes} (htext : ∀ b ∈ text, inLine b = true) :
    withoutReturn text = text := by
  rw [withoutReturn, if_neg]
  intro hlast
  exact absurd (htext 13 (List.mem_of_getLast? hlast)) (by decide)

/-- The line in front of a line feed comes first. -/
theorem looseLines_feed {line : Bytes} (hline : ∀ b ∈ line, b ≠ 10) (rest : Bytes) :
    looseLines (line ++ 10 :: rest) = withoutReturn line :: looseLines rest := by
  have hfeed : cutAtFeeds (10 :: rest) = ([], (cutAtFeeds rest).1 :: (cutAtFeeds rest).2) := rfl
  rw [looseLines_eq, cutAtFeeds_append hline, hfeed, List.append_nil, List.map_cons,
    ← looseLines_eq, withoutReturn]

/-- The last line has no line feed behind it. -/
theorem looseLines_last {line : Bytes} (hline : ∀ b ∈ line, b ≠ 10) :
    looseLines line = [withoutReturn line] := by
  have hcut := cutAtFeeds_append hline []
  rw [List.append_nil] at hcut
  rw [looseLines_eq, hcut, withoutReturn]
  simp [cutAtFeeds]

theorem ne_feed_of_inLine {text : Bytes} (htext : ∀ b ∈ text, inLine b = true) :
    ∀ b ∈ text, b ≠ 10 := by
  rintro b hb rfl
  exact absurd (htext 10 hb) (by decide)

theorem ne_feed_concat {text : Bytes} (htext : ∀ b ∈ text, inLine b = true) :
    ∀ b ∈ text ++ [13], b ≠ 10 := by
  intro b hb
  rcases List.mem_append.1 hb with hb | hb
  · exact ne_feed_of_inLine htext b hb
  · rw [List.mem_singleton.1 hb]
    decide

/-- One line more in front of loose lines. -/
theorem looseLines_cons {text : Bytes} (htext : ∀ b ∈ text, inLine b = true) (rest : Bytes) :
    looseLines (text ++ lineEnd ++ rest) = text :: looseLines rest := by
  have hsplit : text ++ lineEnd ++ rest = (text ++ [13]) ++ 10 :: rest := by simp [lineEnd]
  rw [hsplit, looseLines_feed (ne_feed_concat htext), withoutReturn_concat]

/-- Separated lines are found by lenient reading, and perhaps an empty one behind them. -/
theorem looseLines_linesOctets {ls : List Line} (h : Separated ls)
    (hpaired : ReturnsPaired (linesOctets ls)) :
    ∃ closing, (closing = [] ∨ closing = [[]]) ∧
      looseLines (linesOctets ls) = ls.map Line.text ++ closing := by
  induction ls with
  | nil => exact ⟨[[]], Or.inr rfl, rfl⟩
  | cons line rest ih =>
    obtain ⟨text, ending⟩ := line
    have htext : ∀ b ∈ text, inLine b = true := h.inLine _ List.mem_cons_self
    rw [linesOctets_cons] at hpaired ⊢
    obtain ⟨closing, hclosing, hrest⟩ := ih ⟨h.of_cons, (List.pairwise_cons.1 h.ended).2⟩
      hpaired.of_append
    cases ending with
    | none =>
      have hlast : rest = [] := by
        by_contra hsome
        exact h.ending_ne_none hsome rfl
      refine ⟨[], Or.inl rfl, ?_⟩
      have hline := looseLines_last (ne_feed_of_inLine htext)
      rw [withoutReturn_text htext] at hline
      simpa [hlast, Line.octets, LineEnding.octets] using hline
    | cr =>
      have hreturn : ReturnsPaired (text ++ 13 :: linesOctets rest) := by
        simpa [Line.octets, LineEnding.octets] using hpaired
      have hoctets : linesOctets rest = [] := hreturn.rest_eq_nil (h.head?_ne_lf rfl)
      have hlast : rest = [] := by
        rw [← lines_linesOctets ⟨h.of_cons, (List.pairwise_cons.1 h.ended).2⟩, hoctets, lines_nil]
      refine ⟨[], Or.inl rfl, ?_⟩
      have hline := looseLines_last (ne_feed_concat htext)
      rw [withoutReturn_concat] at hline
      simpa [hlast, Line.octets, LineEnding.octets] using hline
    | lf =>
      refine ⟨closing, hclosing, ?_⟩
      have hline := looseLines_feed (ne_feed_of_inLine htext) (linesOctets rest)
      rw [withoutReturn_text htext, hrest] at hline
      simpa [Line.octets, LineEnding.octets] using hline
    | crlf =>
      refine ⟨closing, hclosing, ?_⟩
      have hline := looseLines_cons htext (linesOctets rest)
      rw [hrest] at hline
      simpa [Line.octets, LineEnding.octets, lineEnd] using hline

/-- Lenient reading finds the lines of a file, and perhaps an empty one at the end. -/
theorem exists_looseLines_eq {octets : Bytes} (h : ReturnsPaired octets) :
    ∃ closing, (closing = [] ∨ closing = [[]]) ∧
      looseLines octets = (lines octets).map Line.text ++ closing := by
  have hfound := looseLines_linesOctets (separated_lines octets)
  rw [linesOctets_lines] at hfound
  exact hfound h

/-! ### Headers -/

namespace Progress

theorem attribute?_headerOctets {a : Attribute} (h : ¬ [':', ' '] <:+: a.1.toList) :
    attribute? (headerOctets a) = some a := by
  have hchars : (a.1 ++ ": " ++ a.2).toList = a.1.toList ++ ':' :: ' ' :: a.2.toList := by
    simp [String.toList_append]
  rw [attribute?, headerOctets, Text.ofUtf8Lenient_utf8, hchars, cutAtColon_key h,
    List.reverse_nil, List.nil_append, Option.map_some]
  simp only [String.ofList_toList]

/-- Octets that state an attribute are read as that attribute. -/
theorem attribute?_of_states {h : Header} {a : Attribute} (hstates : h.States a) :
    attribute? h.octets = some a := by
  rw [hstates.1]
  exact attribute?_headerOctets hstates.2

/-- Lines that are not empty bring the attributes of the headers they join to, behind what the
header begun comes to with the continuations at their front. -/
theorem foldl_take_joined {run : List NumberedLine} (hrun : ∀ line ∈ run, line.text ≠ [])
    (p : Progress) :
    ((run.map NumberedLine.text).foldl take p).closeHeader =
      { p with
        attributes := p.attributes ++ ((attribute? (p.header ++ (joined run).1)).toList ++
          (joined run).2.flatMap fun h => (attribute? h.octets).toList)
        header := [] } := by
  induction run generalizing p with
  | nil => simp [joined, closeHeader]
  | cons line run ih =>
    obtain ⟨hline, hrest⟩ := List.forall_mem_cons.1 hrun
    obtain ⟨b, text, htext⟩ := List.exists_cons_of_ne_nil hline
    rw [List.map_cons, List.foldl_cons, ih hrest, joined_cons]
    by_cases hspace : b = 32
    · have hcontinues : line.isContinuation = true := by
        simp [NumberedLine.isContinuation, htext, hspace]
      rw [if_pos hcontinues, htext]
      simp only [take, if_pos hspace, List.drop_succ_cons, List.drop_zero, List.append_assoc]
    · have hbegins : ¬ line.isContinuation = true := by
        simpa [NumberedLine.isContinuation, htext] using hspace
      rw [if_neg hbegins, htext]
      simp only [take, if_neg hspace, closeHeader, List.append_nil, List.flatMap_cons,
        List.append_assoc, List.cons_append]

/-- Headers that state some attributes are read as these. -/
theorem flatMap_attribute? {headers : List Header} {attributes : List Attribute}
    (h : List.Forall₂ Header.States headers attributes) :
    headers.flatMap (fun h => (attribute? h.octets).toList) = attributes := by
  induction h with
  | nil => rfl
  | cons hstates _ ih =>
    rw [List.flatMap_cons, attribute?_of_states hstates, ih]
    rfl

/-- A draft of which some sections have been read. -/
def between (draft : ManifestDraft) (hasMain : Bool) : Progress := ⟨draft, hasMain, [], []⟩

theorem attribute?_nil : attribute? [] = none := by
  rw [attribute?, Text.ofUtf8Lenient, Text.lenientFrom]
  rfl

theorem closeHeader_between (draft : ManifestDraft) (hasMain : Bool) :
    (between draft hasMain).closeHeader = between draft hasMain := by
  rw [closeHeader, between, attribute?_nil]
  rfl

/-- A paragraph that states a section brings its attributes. -/
theorem foldl_take_run {run : List NumberedLine} {attributes : List Attribute} (hne : run ≠ [])
    (hrun : ∀ line ∈ run, line.text ≠ []) (h : attributes? run = .ok attributes)
    (draft : ManifestDraft) (hasMain : Bool) :
    ((run.map NumberedLine.text).foldl take (between draft hasMain)).closeHeader =
      ⟨draft, hasMain, attributes, []⟩ := by
  have hmem : run ∈ runs run := by simp [runs_of_full hne hrun]
  have hstates := states_of_attributes? hmem h
  obtain ⟨first, rest, rfl⟩ := List.exists_cons_of_ne_nil hne
  have hcontinuation : (joined (first :: rest)).1 = [] := by
    rw [attributes?_cons] at h
    split at h
    · cases h
    next hbegins => rw [joined_cons, if_neg hbegins]
  have hheaders : (joined (first :: rest)).2 = headers (first :: rest) := by
    rw [joined_full hrun]
  rw [foldl_take_joined hrun, hcontinuation, hheaders, flatMap_attribute? hstates]
  simp [between, attribute?_nil]

/-! ### Sections -/

/-- Take a whole section. -/
def takeSection (p : Progress) (attributes : List Attribute) : Progress :=
  { p with attributes }.closeSection

/-- Behind a section nothing is begun. -/
theorem exists_between (draft : ManifestDraft) (hasMain : Bool) (attributes : List Attribute) :
    ∃ next hasMain', closeSection ⟨draft, hasMain, attributes, []⟩ = between next hasMain' := by
  cases attributes with
  | nil => exact ⟨draft, hasMain, rfl⟩
  | cons a rest =>
    obtain ⟨key, value⟩ := a
    cases hasMain with
    | false => exact ⟨_, _, rfl⟩
    | true =>
      unfold closeSection
      by_cases hname : Text.alike key "Name" = true
      · simp only [Bool.not_true, Bool.false_eq_true, if_false, if_pos hname]
        exact ⟨_, _, rfl⟩
      · simp only [Bool.not_true, Bool.false_eq_true, if_false, if_neg hname]
        exact ⟨_, _, rfl⟩

theorem takeSection_between (draft : ManifestDraft) (hasMain : Bool)
    (attributes : List Attribute) :
    takeSection (between draft hasMain) attributes =
      closeSection ⟨draft, hasMain, attributes, []⟩ := rfl

theorem exists_foldl_takeSection (all : List (List Attribute)) (draft : ManifestDraft)
    (hasMain : Bool) :
    ∃ next hasMain', all.foldl takeSection (between draft hasMain) = between next hasMain' := by
  induction all generalizing draft hasMain with
  | nil => exact ⟨draft, hasMain, rfl⟩
  | cons attributes all ih =>
    obtain ⟨next, hasMain', hnext⟩ := exists_between draft hasMain attributes
    rw [List.foldl_cons, takeSection_between, hnext]
    exact ih next hasMain'

/-- Lines without an empty one among them bring the section of their paragraph, if there is one. -/
theorem foldl_take_full {run : List NumberedLine} {all : List (List Attribute)}
    (hrun : ∀ line ∈ run, line.text ≠ []) (h : (runs run).mapM attributes? = .ok all)
    (draft : ManifestDraft) (hasMain : Bool) :
    ((run.map NumberedLine.text).foldl take (between draft hasMain)).closeHeader.closeSection =
      all.foldl takeSection (between draft hasMain) := by
  by_cases hempty : run = []
  · rw [hempty, runs_nil] at h
    cases h
    rw [hempty, List.map_nil, List.foldl_nil, closeHeader_between]
    rfl
  · rw [runs_of_full hempty hrun, List.mapM_cons, List.mapM_nil, Steps.bind_eq_ok_iff] at h
    obtain ⟨attributes, hattributes, hall⟩ := h
    cases hall
    rw [foldl_take_run hempty hrun hattributes, List.foldl_cons, List.foldl_nil,
      takeSection_between]

/-- Lines bring the sections of their paragraphs. -/
theorem foldl_take_runs {ls : List NumberedLine} {all : List (List Attribute)}
    (h : (runs ls).mapM attributes? = .ok all) (draft : ManifestDraft) (hasMain : Bool) :
    ((ls.map NumberedLine.text).foldl take (between draft hasMain)).closeHeader.closeSection =
      all.foldl takeSection (between draft hasMain) := by
  induction ls using induction_on_runs (p := fun line : NumberedLine => line.text = [])
    generalizing all draft hasMain with
  | full run hrun => exact foldl_take_full hrun h draft hasMain
  | closed run blank rest hrun hblank ih =>
    rw [runs_append_blank hblank, List.mapM_append, Steps.bind_eq_ok_iff] at h
    obtain ⟨front, hfront, h⟩ := h
    rw [Steps.bind_eq_ok_iff] at h
    obtain ⟨back, hback, hall⟩ := h
    cases hall
    obtain ⟨next, hasMain', hnext⟩ := exists_foldl_takeSection front draft hasMain
    have hsection := foldl_take_full hrun hfront draft hasMain
    rw [hnext] at hsection
    rw [List.map_append, List.map_cons, hblank, List.foldl_append, List.foldl_cons, take, hsection,
      ih hback, List.foldl_append, hnext]

end Progress

/-! ### Whole manifests -/

/-- The section that some attributes are, if they begin with its name. -/
def sectionOf? : List Attribute → Option (String × List Attribute)
  | [] => none
  | (key, value) :: rest => if Text.alike key "Name" then some (value, rest) else none

/-- The draft of some sections given by their attributes. -/
def drafted : List (List Attribute) → ManifestDraft
  | [] => ⟨[], []⟩
  | main :: rest => ⟨main, rest.filterMap sectionOf?⟩

theorem Progress.foldl_takeSection_named (all : List (List Attribute)) (main : List Attribute)
    (before : List (String × List Attribute)) :
    all.foldl takeSection (between ⟨main, before⟩ true) =
      between ⟨main, before ++ all.filterMap sectionOf?⟩ true := by
  induction all generalizing before with
  | nil => rw [List.foldl_nil, List.filterMap_nil, List.append_nil]
  | cons attributes all ih =>
    rw [List.foldl_cons]
    cases attributes with
    | nil => exact ih before
    | cons a rest =>
      obtain ⟨key, value⟩ := a
      rw [takeSection_between, closeSection]
      by_cases hname : Text.alike key "Name" = true
      · have hsection : sectionOf? ((key, value) :: rest) = some (value, rest) := if_pos hname
        simp only [Bool.not_true, Bool.false_eq_true, if_false, if_pos hname]
        rw [List.filterMap_cons_some hsection]
        have hnext := ih (before ++ [(value, rest)])
        rw [List.append_assoc] at hnext
        exact hnext
      · have hnone : sectionOf? ((key, value) :: rest) = none := if_neg hname
        simp only [Bool.not_true, Bool.false_eq_true, if_false, if_neg hname]
        rw [List.filterMap_cons_none hnone]
        exact ih before

theorem Progress.foldl_takeSection {all : List (List Attribute)}
    (hall : ∀ attributes ∈ all, attributes ≠ []) :
    (all.foldl takeSection begin).draft = drafted all := by
  cases all with
  | nil => rfl
  | cons main rest =>
    obtain ⟨⟨key, value⟩, attributes, rfl⟩ :=
      List.exists_cons_of_ne_nil (hall main List.mem_cons_self)
    have hnamed := foldl_takeSection_named rest ((key, value) :: attributes) []
    rw [List.nil_append] at hnamed
    exact congrArg Progress.draft hnamed

/-- Of a manifest that strict reading accepts, lenient reading drafts the same sections. -/
theorem read_eq_drafted {octets : Bytes} {all : List Section} (hpaired : ReturnsPaired octets)
    (h : (paragraphs octets).mapM Paragraph.section? = .ok all) :
    read octets = drafted (all.map Section.attributes) := by
  obtain ⟨closing, hclosing, hlines⟩ := exists_looseLines_eq hpaired
  have hruns := mapM_attributes? octets
  rw [h] at hruns
  have hne : ∀ attributes ∈ all.map Section.attributes, attributes ≠ [] :=
    List.forall_mem_map.2 (attributes_ne_nil_of_mapM h)
  have htexts : (lines octets).map Line.text = (numberedLines octets).map NumberedLine.text :=
    (map_text_numbered 0 _).symm
  have hfold := Progress.foldl_take_runs hruns ⟨[], []⟩ false
  obtain ⟨next, hasMain, hnext⟩ :=
    Progress.exists_foldl_takeSection (all.map Section.attributes) ⟨[], []⟩ false
  rw [← Progress.foldl_takeSection hne, read, hlines, htexts, List.foldl_append]
  change (closing.foldl Progress.take _).closeHeader.closeSection.draft = _
  rcases hclosing with rfl | rfl
  · exact congrArg Progress.draft hfold
  · -- An empty line at the end closes what is closed again behind it.
    have hclosed : Progress.take (((numberedLines octets).map NumberedLine.text).foldl
        Progress.take .begin) [] = Progress.between next hasMain := hfold.trans hnext
    rw [List.foldl_cons, List.foldl_nil, hclosed, Progress.closeHeader_between]
    exact (congrArg Progress.draft hnext).symm

end ManifestDraft

end JarSigners
