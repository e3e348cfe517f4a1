import JarSigners.Manifest.Basic
import JarSigners.Proofs.Manifest.Paragraphs
import JarSigners.Proofs.Steps

/-!
# How paragraphs become sections

The attributes of a section depend on the lines of its paragraph only, and up to the numbers in
errors on the headers they join to (`SameHeaders.toOption_attributes?`). A manifest is read if all
paragraphs state sections and all but the first have a name (`read_eq_ok_iff`).
-/

set_option autoImplicit false

namespace JarSigners.Manifest

open Steps

/-- The sections in file order, the main one among them if it states anything. -/
def sectionsInOrder (m : Manifest) : List Section :=
  (m.main :: m.sections).filter fun s => !s.attributes.isEmpty

/-- The manifest of some sections. -/
def assembled (bytes : Bytes) (all : List Section) : Manifest :=
  ⟨bytes, (parted all).1, (parted all).2⟩

/-! ### The attributes of a paragraph -/

/-- The attributes that the lines of a paragraph state. -/
def attributes? (ls : List NumberedLine) : Except ManifestDefect (List Attribute) :=
  (Paragraph.section? ⟨ls, 0, 0⟩).map Section.attributes

theorem section?_cons (first : NumberedLine) (rest : List NumberedLine) (start stop : Nat) :
    Paragraph.section? ⟨first :: rest, start, stop⟩ =
      if first.isContinuation then .error (.strayContinuation first.number)
      else ((joined (first :: rest)).2.mapM Header.attribute?).map fun attributes =>
        ⟨attributes, start, stop⟩ := by
  dsimp only [Paragraph.section?]
  cases (joined (first :: rest)).2.mapM Header.attribute? <;> rfl

theorem attributes?_cons (first : NumberedLine) (rest : List NumberedLine) :
    attributes? (first :: rest) =
      if first.isContinuation then .error (.strayContinuation first.number)
      else (joined (first :: rest)).2.mapM Header.attribute? := by
  rw [attributes?, section?_cons]
  split
  · rfl
  · cases (joined (first :: rest)).2.mapM Header.attribute? <;> rfl

/-- A section is the attributes of its lines in its place. -/
theorem section?_eq (p : Paragraph) :
    p.section? = (attributes? p.lines).map fun attributes => ⟨attributes, p.start, p.stop⟩ := by
  obtain ⟨ls, start, stop⟩ := p
  cases ls with
  | nil => rfl
  | cons first rest =>
    rw [attributes?_cons, section?_cons]
    split <;> rfl

theorem joined_cons (line : NumberedLine) (ls : List NumberedLine) :
    joined (line :: ls) =
      if line.isContinuation then (line.text.drop 1 ++ (joined ls).1, (joined ls).2)
      else ([], ⟨line.number, line.text ++ (joined ls).1⟩ :: (joined ls).2) :=
  rfl

/-- Lines that state a section state some attribute. -/
theorem attributes_ne_nil {ls : List NumberedLine} {attributes : List Attribute} (hls : ls ≠ [])
    (h : attributes? ls = .ok attributes) : attributes ≠ [] := by
  obtain ⟨first, rest, rfl⟩ := List.exists_cons_of_ne_nil hls
  rw [attributes?_cons] at h
  split at h
  · cases h
  next hfirst =>
    rw [joined_cons, if_neg hfirst] at h
    cases forall₂_of_mapM_eq_ok h with
    | cons _ _ => exact List.cons_ne_nil _ _

/-! ### Lines that join to the same headers -/

/-- The attribute that octets state, whatever the line. -/
theorem toOption_attribute?_congr {h h' : Header} (hoctets : h.octets = h'.octets) :
    h.attribute?.toOption = h'.attribute?.toOption := by
  unfold Header.attribute?
  rw [hoctets]
  cases Text.ofUtf8? h'.octets with
  | none => rfl
  | some text =>
    dsimp only
    cases cutAtColon [] text.toList <;> rfl

/-- Lines that join to headers of the same octets, behind the same octets that continue what is in
front of them. -/
structure SameHeaders (ls ls' : List NumberedLine) : Prop where
  begin : ls.head?.map NumberedLine.isContinuation = ls'.head?.map NumberedLine.isContinuation
  continuation : (joined ls).1 = (joined ls').1
  octets : (joined ls).2.map Header.octets = (joined ls').2.map Header.octets

namespace SameHeaders

variable {ls ls' : List NumberedLine} {line line' : NumberedLine}

theorem nil : SameHeaders [] [] :=
  ⟨rfl, rfl, rfl⟩

theorem cons (htext : line.text = line'.text) (h : SameHeaders ls ls') :
    SameHeaders (line :: ls) (line' :: ls') := by
  have hcontinues : line.isContinuation = line'.isContinuation := by
    simp only [NumberedLine.isContinuation, htext]
  refine ⟨by simp [hcontinues], ?_, ?_⟩
  · rw [joined_cons, joined_cons, hcontinues, htext, h.continuation]
    split <;> rfl
  · rw [joined_cons, joined_cons, hcontinues, htext, h.continuation]
    split
    · exact h.octets
    · simp [h.octets]

/-- Lines of the same texts. -/
theorem of_texts (h : ls.map NumberedLine.text = ls'.map NumberedLine.text) :
    SameHeaders ls ls' := by
  induction ls generalizing ls' with
  | nil =>
    obtain rfl : ls' = [] := by simpa using h.symm
    exact nil
  | cons line ls ih =>
    cases ls' with
    | nil => simp at h
    | cons line' ls' =>
      rw [List.map_cons, List.map_cons, List.cons.injEq] at h
      exact cons h.1 (ih h.2)

/-- A line may be cut in two if the second part is marked as a continuation. -/
theorem cut {first second : NumberedLine} {k : Nat} (hk : 0 < k)
    (hfirst : first.text = line.text.take k) (hsecond : second.text = 32 :: line.text.drop k)
    (h : SameHeaders ls ls') :
    SameHeaders (line :: ls) (first :: second :: ls') := by
  have hcontinues : first.isContinuation = line.isContinuation := by
    simp only [NumberedLine.isContinuation, hfirst, List.head?_take, if_neg (Nat.ne_of_gt hk)]
  have hmarked : second.isContinuation = true := by
    simp [NumberedLine.isContinuation, hsecond]
  have hwhole := List.take_append_drop k line.text
  have hbehind : (line.text.take k).drop 1 ++ line.text.drop k = line.text.drop 1 := by
    cases htext : line.text with
    | nil => simp
    | cons b text =>
      obtain ⟨k, rfl⟩ := Nat.exists_eq_succ_of_ne_zero (Nat.ne_of_gt hk)
      simp
  refine ⟨by simp [hcontinues], ?_, ?_⟩
  · rw [joined_cons, joined_cons, joined_cons, hcontinues, hmarked, hfirst, hsecond,
      h.continuation]
    split
    · simp [← hbehind]
    · rfl
  · rw [joined_cons, joined_cons, joined_cons, hcontinues, hmarked, hfirst, hsecond,
      h.continuation]
    split
    · simp [h.octets]
    · simp [h.octets, ← List.append_assoc, hwhole]

/-- Lines that join to the same headers state the same attributes, if any. -/
theorem toOption_attributes? (h : SameHeaders ls ls') :
    (attributes? ls).toOption = (attributes? ls').toOption := by
  have hheaders : ((joined ls).2.mapM Header.attribute?).toOption =
      ((joined ls').2.mapM Header.attribute?).toOption := by
    have hoctets : List.Forall₂ (· = ·) ((joined ls).2.map Header.octets)
        ((joined ls').2.map Header.octets) := by
      rw [List.forall₂_eq_eq_eq]
      exact h.octets
    rw [List.forall₂_map_left_iff, List.forall₂_map_right_iff] at hoctets
    exact toOption_mapM_congr (hoctets.imp fun _ _ => toOption_attribute?_congr)
  have hbegin := h.begin
  cases ls with
  | nil =>
    cases ls' with
    | nil => rfl
    | cons line' ls' => simp at hbegin
  | cons line ls =>
    cases ls' with
    | nil => simp at hbegin
    | cons line' ls' =>
      have hfirst : line.isContinuation = line'.isContinuation := by simpa using hbegin
      rw [attributes?_cons, attributes?_cons, hfirst]
      split
      · rfl
      · exact hheaders

end SameHeaders

/-! ### Reading -/

theorem assembled_sections (bytes : Bytes) (all : List Section) :
    ((assembled bytes all).sections.all fun s => s.name?.isSome) = true ↔
      ∀ s ∈ all.tail, s.name?.isSome = true := by
  cases all with
  | nil => simp [assembled, parted]
  | cons first rest =>
    unfold assembled parted
    by_cases hname : first.name?.isNone = true
    · simp [hname]
    · have hsome : first.name?.isSome = true := by
        rw [Option.isSome_iff_ne_none]
        simpa using hname
      simp [hname, hsome]

theorem ofBytes_eq (bytes : Bytes) :
    ofBytes bytes = (paragraphs bytes).mapM Paragraph.section? >>= fun all =>
      if ∀ s ∈ all.tail, s.name?.isSome = true then .ok (assembled bytes all)
      else .error .unnamedSection := by
  unfold ofBytes
  congr 1
  funext all
  exact ite_congr (propext (assembled_sections bytes all)) (fun _ => rfl) fun _ => rfl

/-- A manifest is read if all paragraphs state sections and all but the first have a name. -/
theorem ofBytes_eq_ok_iff {bytes : Bytes} {m : Manifest} :
    ofBytes bytes = .ok m ↔ ∃ all, (paragraphs bytes).mapM Paragraph.section? = .ok all ∧
      (∀ s ∈ all.tail, s.name?.isSome = true) ∧ m = assembled bytes all := by
  rw [ofBytes_eq, bind_eq_ok_iff]
  refine exists_congr fun all => and_congr_right fun _ => ?_
  constructor
  · intro h
    split at h
    next hnamed =>
      cases h
      exact ⟨hnamed, rfl⟩
    · cases h
  · rintro ⟨hnamed, rfl⟩
    exact if_pos hnamed

/-- What keeps a manifest from being read is what keeps its first bad paragraph from stating a
section, and if there is none, a section without a name. -/
theorem ofBytes_eq_error_iff {bytes : Bytes} {defect : ManifestDefect} :
    ofBytes bytes = .error defect ↔
      (paragraphs bytes).mapM Paragraph.section? = .error defect ∨
      ∃ all, (paragraphs bytes).mapM Paragraph.section? = .ok all ∧
        (¬ ∀ s ∈ all.tail, s.name?.isSome = true) ∧ defect = .unnamedSection := by
  rw [ofBytes_eq]
  cases (paragraphs bytes).mapM Paragraph.section? with
  | error e => simp
  | ok all =>
    rw [ok_bind]
    constructor
    · intro h
      split at h
      · cases h
      next hunnamed =>
        cases h
        exact Or.inr ⟨all, rfl, hunnamed, rfl⟩
    · rintro (h | ⟨_, hall, hunnamed, rfl⟩)
      · cases h
      · cases hall
        exact if_neg hunnamed

theorem read_eq_ok_iff {file : String} {bytes : Bytes} {m : Manifest} :
    Manifest.read file bytes = .ok m ↔ ofBytes bytes = .ok m := by
  unfold Manifest.read
  cases ofBytes bytes <;> simp [Except.mapError]

theorem read_eq_error_iff {file : String} {bytes : Bytes} {failure : TrustFailure} :
    Manifest.read file bytes = .error failure ↔
      ∃ defect, ofBytes bytes = .error defect ∧ failure = .malformed file defect := by
  unfold Manifest.read
  cases ofBytes bytes <;> simp [Except.mapError, eq_comm]

/-- Lines are read if their paragraphs state sections and all but the first have a name. -/
theorem read_linesOctets (file : String) (ls : List Line) (all : List Section) (h : Separated ls)
    (hall : (paragraphsFrom 0 0 ls).mapM Paragraph.section? = .ok all)
    (hnamed : ∀ s ∈ all.tail, s.name?.isSome = true) :
    Manifest.read file (linesOctets ls) = .ok (assembled (linesOctets ls) all) := by
  rw [read_eq_ok_iff, ofBytes_eq_ok_iff]
  refine ⟨all, ?_, hnamed, rfl⟩
  rwa [paragraphs_eq, lines_linesOctets h]

/-- Every section that is read states something. -/
theorem attributes_ne_nil_of_mapM {bytes : Bytes} {all : List Section}
    (h : (paragraphs bytes).mapM Paragraph.section? = .ok all) : ∀ s ∈ all, s.attributes ≠ [] := by
  intro s hs
  obtain ⟨p, hp, hsection⟩ := exists_of_mem_of_mapM_eq_ok h hs
  rw [section?_eq, map_eq_ok_iff] at hsection
  obtain ⟨attributes, hattributes, rfl⟩ := hsection
  have hlines : p.lines ∈ runs (numberedLines bytes) := by
    rw [← map_lines_paragraphs]
    exact List.mem_map_of_mem hp
  exact attributes_ne_nil (by simpa using (List.mem_filter.1 hlines).2) hattributes

/-- The attributes of the sections are those that the runs of lines state. -/
theorem mapM_attributes? (bytes : Bytes) :
    (runs (numberedLines bytes)).mapM attributes? =
      ((paragraphs bytes).mapM Paragraph.section?).map (List.map Section.attributes) := by
  rw [← map_lines_paragraphs, List.mapM_map, ← mapM_map_result]
  congr 1
  funext p
  rw [section?_eq, Function.comp_apply]
  cases attributes? p.lines <;> rfl

theorem sectionsInOrder_assembled {bytes : Bytes} {all : List Section}
    (h : ∀ s ∈ all, s.attributes ≠ []) : (assembled bytes all).sectionsInOrder = all := by
  have hall : all.filter (fun s => !s.attributes.isEmpty) = all :=
    List.filter_eq_self.2 fun s hs => by simpa using h s hs
  cases all with
  | nil => rfl
  | cons first rest =>
    unfold sectionsInOrder assembled parted
    by_cases hname : first.name?.isNone = true
    · simpa only [hname, if_true] using hall
    · simp only [hname, Bool.false_eq_true, if_false]
      exact hall

end JarSigners.Manifest
