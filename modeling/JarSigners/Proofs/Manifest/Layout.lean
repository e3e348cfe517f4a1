import JarSigners.Proofs.Manifest.Sections

/-!
# The layout of a manifest does not matter

What a manifest means is its attributes, section by section, and what is found by a name. It is
known from the runs of its lines (`map_meaning_ofBytes`). How lines end does not change the runs,
and a line that is cut, the second part marked as a continuation, joins to the header that it was;
so neither changes the meaning (`layout_does_not_change_the_meaning`).
-/

set_option autoImplicit false

namespace JarSigners.Manifest

open Steps

/-! ### What a manifest means -/

/-- The attributes of a manifest, and those that are found by a name. -/
@[ext]
structure Meaning where
  main : List Attribute
  sections : List (List Attribute)
  lookup : String → Option (List Attribute)

/-- What a manifest says, whatever the octets it was read from. -/
def meaning (m : Manifest) : Meaning where
  main := m.main.attributes
  sections := m.sections.map Section.attributes
  lookup := fun name => (m.section? name).map Section.attributes

/-- A section that stands nowhere. -/
def placeless (attributes : List Attribute) : Section := ⟨attributes, 0, 0⟩

theorem map_attributes_section? (m : Manifest) (name : String) :
    (m.section? name).map Section.attributes =
      (m.sections.map Section.attributes).reverse.find? fun attributes =>
        (placeless attributes).name? = some name := by
  rw [Manifest.section?, ← List.map_reverse, List.find?_map]
  rfl

theorem meaning_congr {m m' : Manifest} (hmain : m.main.attributes = m'.main.attributes)
    (hsections : m.sections.map Section.attributes = m'.sections.map Section.attributes) :
    m.meaning = m'.meaning := by
  refine Meaning.ext hmain hsections (funext fun name => ?_)
  simp only [meaning, map_attributes_section?, hsections]

/-- What sections with these attributes mean. -/
def meaningOf (all : List (List Attribute)) : Except ManifestDefect Meaning :=
  if ∀ attributes ∈ all.tail, (placeless attributes).name?.isSome = true then
    .ok (assembled [] (all.map placeless)).meaning
  else .error .unnamedSection

theorem meaning_assembled (bytes : Bytes) (all : List Section) :
    (assembled bytes all).meaning =
      (assembled [] ((all.map Section.attributes).map placeless)).meaning := by
  have hattributes : ∀ more : List Section,
      more.map Section.attributes =
        ((more.map Section.attributes).map placeless).map Section.attributes := by
    intro more
    rw [List.map_map, List.map_map]
    rfl
  cases all with
  | nil => rfl
  | cons first rest =>
    have hname : (placeless first.attributes).name? = first.name? := rfl
    unfold assembled
    rw [List.map_cons, List.map_cons, parted, parted, hname]
    split
    · exact meaning_congr rfl (hattributes rest)
    · exact meaning_congr rfl (hattributes (first :: rest))

/-- The meaning of a manifest is known from the runs of its lines. -/
theorem map_meaning_ofBytes (bytes : Bytes) :
    (ofBytes bytes).map meaning = (runs (numberedLines bytes)).mapM attributes? >>= meaningOf := by
  rw [ofBytes_eq, mapM_attributes?]
  cases (paragraphs bytes).mapM Paragraph.section? with
  | error defect => rfl
  | ok all =>
    have hnamed : (∀ attributes ∈ (all.map Section.attributes).tail,
        (placeless attributes).name?.isSome = true) ↔ ∀ s ∈ all.tail, s.name?.isSome = true := by
      rw [← List.map_tail, List.forall_mem_map]
      exact Iff.rfl
    rw [Except.map, ok_bind, ok_bind, meaningOf, if_congr hnamed rfl rfl, ← meaning_assembled bytes]
    split <;> rfl

/-! ### Lines that are cut -/

/-- Lines of the same texts, but that some were cut in two and the second parts marked as
continuations. -/
inductive Recut : List NumberedLine → List NumberedLine → Prop
  | nil : Recut [] []
  | cons {line line' : NumberedLine} {ls ls' : List NumberedLine} (htext : line.text = line'.text)
    (h : Recut ls ls') : Recut (line :: ls) (line' :: ls')
  | cut {line first second : NumberedLine} {ls ls' : List NumberedLine} {k : Nat} (hk : 0 < k)
    (hle : k ≤ line.text.length) (hfirst : first.text = line.text.take k)
    (hsecond : second.text = 32 :: line.text.drop k) (h : Recut ls ls') :
    Recut (line :: ls) (first :: second :: ls')

theorem Recut.numbered (texts : List Bytes) (before before' : Nat) :
    Recut (numbered before texts) (numbered before' texts) := by
  induction texts generalizing before before' with
  | nil => exact .nil
  | cons text texts ih => exact .cons rfl (ih (before + 1) (before' + 1))

theorem Recut.numbered_cut {text : Bytes} {k : Nat} (hk : 0 < k) (hle : k ≤ text.length)
    (front back : List Bytes) (before : Nat) :
    Recut (Manifest.numbered before (front ++ text :: back))
      (Manifest.numbered before (front ++ text.take k :: (32 :: text.drop k) :: back)) := by
  induction front generalizing before with
  | nil => exact .cut hk hle rfl rfl (Recut.numbered back _ _)
  | cons line front ih => exact .cons rfl (ih (before + 1))

theorem forall₂_modifyHead {α : Type} {r : α → α → Prop} {f g : α → α} {xs ys : List α}
    (hfg : ∀ x y, r x y → r (f x) (g y)) (h : List.Forall₂ r xs ys) :
    List.Forall₂ r (xs.modifyHead f) (ys.modifyHead g) := by
  cases h with
  | nil => exact .nil
  | cons hhead htail => exact .cons (hfg _ _ hhead) htail

/-- Lines that are cut fall into pieces that join to the same headers. -/
theorem Recut.splitOnP {ls ls' : List NumberedLine} (h : Recut ls ls') :
    List.Forall₂ SameHeaders (ls.splitOnP fun line => line.text.isEmpty)
      (ls'.splitOnP fun line => line.text.isEmpty) := by
  induction h with
  | nil => exact .cons SameHeaders.nil .nil
  | cons htext _ ih =>
    rw [List.splitOnP_cons_eq_if_modifyHead, List.splitOnP_cons_eq_if_modifyHead, htext]
    split
    · exact .cons SameHeaders.nil ih
    · exact forall₂_modifyHead (fun _ _ hpieces => hpieces.cons htext) ih
  | @cut line first second ls ls' k hk hle hfirst hsecond _ ih =>
    -- Neither part is empty, so the cut does not part the piece.
    have hline : line.text ≠ [] := List.length_pos_iff.1 (Nat.lt_of_lt_of_le hk hle)
    have hpart : first.text ≠ [] := by
      rw [hfirst, ne_eq, List.take_eq_nil_iff]
      simp [hline, Nat.ne_of_gt hk]
    have hmarked : second.text ≠ [] := by simp [hsecond]
    have hboth := forall₂_modifyHead
      (fun _ _ hpieces => SameHeaders.cut hk hfirst hsecond hpieces) ih
    simpa [List.splitOnP_cons_eq_if_modifyHead, hline, hpart, hmarked, Function.comp_def]
      using hboth

/-- Their runs do too. -/
theorem Recut.runs {ls ls' : List NumberedLine} (h : Recut ls ls') :
    List.Forall₂ SameHeaders (runs ls) (runs ls') := by
  refine List.rel_filter (fun piece piece' hpieces => ?_) h.splitOnP
  have hbegin := hpieces.begin
  cases piece with
  | nil =>
    cases piece' with
    | nil => rfl
    | cons line' piece' => simp at hbegin
  | cons line piece =>
    cases piece' with
    | nil => simp at hbegin
    | cons line' piece' => simp

/-! ### Layouts -/

/-- The meaning of a file that is laid out is known from the runs of the lines. -/
theorem map_meaning_read {ls : List Line} (h : LaidOut ls) (file : String) :
    (Manifest.read file (linesOctets ls)).map meaning =
      ((runs (numbered 0 (ls.map Line.text))).mapM attributes? >>= meaningOf).mapError
        (TrustFailure.malformed file) := by
  rw [← runs_numberedLines h, ← map_meaning_ofBytes, Manifest.read]
  cases ofBytes (linesOctets ls) <;> rfl

/-- Files of the same lines mean the same, or have the same defect, however the lines end. And a
line that is cut anywhere, the second part marked as a continuation, does not change whether a file
is read and what it means. -/
theorem layout_does_not_change_the_meaning (file : String) :
    (∀ ls ls' : List Line, LaidOut ls → LaidOut ls' → ls'.map Line.text = ls.map Line.text →
      (Manifest.read file (linesOctets ls')).map meaning =
        (Manifest.read file (linesOctets ls)).map meaning) ∧
    (∀ (ls ls' : List Line) (front : List Bytes) (text : Bytes) (back : List Bytes) (k : Nat),
      LaidOut ls → LaidOut ls' → 1 ≤ k → k ≤ text.length →
      ls.map Line.text = front ++ text :: back →
      ls'.map Line.text = front ++ text.take k :: (32 :: text.drop k) :: back →
      ((Manifest.read file (linesOctets ls')).map meaning).toOption =
        ((Manifest.read file (linesOctets ls)).map meaning).toOption) := by
  constructor
  · intro ls ls' h h' htexts
    rw [map_meaning_read h, map_meaning_read h', htexts]
  · intro ls ls' front text back k h h' hk hle htexts htexts'
    have hheaders := (Recut.numbered_cut hk hle front back 0).runs
    have hattributes :=
      toOption_mapM_congr (hheaders.imp fun _ _ => SameHeaders.toOption_attributes?)
    rw [map_meaning_read h, map_meaning_read h', htexts, htexts', toOption_mapError,
      toOption_mapError, toOption_bind, toOption_bind, hattributes]

/-- The lines `A: b`, none, and `Name: ü`. -/
def crlfLayout : List Line :=
  [⟨[65, 58, 32, 98], .crlf⟩, ⟨[], .crlf⟩, ⟨[78, 97, 109, 101, 58, 32, 195, 188], .crlf⟩]

/-- The same lines, the last one without an ending. -/
def crLayout : List Line :=
  [⟨[65, 58, 32, 98], .cr⟩, ⟨[], .cr⟩, ⟨[78, 97, 109, 101, 58, 32, 195, 188], .none⟩]

/-- The last line cut in the middle of its last character. -/
def cutLayout : List Line :=
  [⟨[65, 58, 32, 98], .lf⟩, ⟨[], .crlf⟩, ⟨[78, 97, 109, 101, 58, 32, 195], .cr⟩,
    ⟨[32, 188], .none⟩]

theorem layouts_mean_the_same :
    LaidOut crlfLayout ∧ LaidOut crLayout ∧ LaidOut cutLayout ∧
    ∃ found, (Manifest.read "M" (linesOctets crlfLayout)).map meaning = .ok found ∧
      found.main = [("A", "b")] ∧ found.sections = [[("Name", "ü")]] ∧
      (Manifest.read "M" (linesOctets crLayout)).map meaning = .ok found ∧
      ((Manifest.read "M" (linesOctets cutLayout)).map meaning).toOption = some found := by
  have hcrlf : LaidOut crlfLayout := by decide
  have hcr : LaidOut crLayout := by decide
  have hcut : LaidOut cutLayout := by decide
  have hread : (Manifest.read "M" (linesOctets crlfLayout)).map meaning =
      .ok (assembled [] [⟨[("A", "b")], 0, 0⟩, ⟨[("Name", "ü")], 0, 0⟩]).meaning := by
    rw [map_meaning_read hcrlf]
    rfl
  obtain ⟨hendings, hcuts⟩ := layout_does_not_change_the_meaning "M"
  have hended := hendings crlfLayout crLayout hcrlf hcr rfl
  have hcutOnce := hcuts crlfLayout cutLayout [[65, 58, 32, 98], []]
    [78, 97, 109, 101, 58, 32, 195, 188] [] 7 hcrlf hcut (by decide) (by decide) rfl rfl
  refine ⟨hcrlf, hcr, hcut, _, hread, rfl, rfl, ?_, ?_⟩
  · rw [hended, hread]
  · rw [hcutOnce, hread]
    rfl

end JarSigners.Manifest
