import JarSigners.Digest.Algorithm
import JarSigners.Proofs.Text.Slices

/-!
# Names of digest algorithms

The name of a digest attribute is a spelling of an algorithm's label followed by an ending, both
in any ASCII case. The cut from the end of the name finds that algorithm: labels of different
algorithms are never alike, so there is at most one. Object identifiers tell algorithms apart
likewise.
-/

set_option autoImplicit false

namespace JarSigners.Digest.Algorithm

variable {a b : Algorithm} {key ending : String}

/-- An attribute name is a spelling of the algorithm's label and then the ending, in any case. -/
def Labels (a : Algorithm) (ending key : String) : Prop :=
  ∃ spelling ∈ a.spellings, Text.alike key (spelling ++ ending) = true

theorem mem_all (a : Algorithm) : a ∈ all := by
  cases a <;> decide

/-- Spellings that are alike belong to one algorithm. -/
theorem eq_of_alike_spellings : ∀ a ∈ all, ∀ b ∈ all, ∀ spelling ∈ a.spellings,
    ∀ other ∈ b.spellings, Text.folded spelling.toList = Text.folded other.toList → a = b := by
  decide

theorem isLabelled_iff {text : List Char} : a.isLabelled text = true ↔
    ∃ spelling ∈ a.spellings, Text.alikeChars text spelling.toList = true := by
  simp only [isLabelled, List.any_eq_true, Text.alikeChars_iff, eq_comm (a := Text.folded text)]

theorem isLabelled_unique {text : List Char} (ha : a.isLabelled text = true)
    (hb : b.isLabelled text = true) : a = b := by
  obtain ⟨spelling, hspelling, halike⟩ := isLabelled_iff.1 ha
  obtain ⟨other, hother, halike'⟩ := isLabelled_iff.1 hb
  rw [Text.alikeChars_iff] at halike halike'
  exact eq_of_alike_spellings a (mem_all a) b (mem_all b) spelling hspelling other hother
    (halike.symm.trans halike')

theorem ofLabelChars?_eq_some_iff {text : List Char} :
    ofLabelChars? text = some a ↔ a.isLabelled text = true := by
  rw [ofLabelChars?]
  constructor
  · intro h
    have hfound := List.find?_some h
    exact hfound
  · intro h
    obtain ⟨b, hb⟩ : ∃ b, all.find? (fun b => b.isLabelled text) = some b :=
      Option.isSome_iff_exists.1 (List.find?_isSome.2 ⟨a, mem_all a, h⟩)
    have hlabelled := List.find?_some hb
    rw [hb, isLabelled_unique hlabelled h]

/-- The algorithm found for an attribute name is the one that the name labels. -/
theorem ofAttribute?_eq_some_iff : ofAttribute? key ending = some a ↔ a.Labels ending key := by
  simp only [ofAttribute?, Labels, Text.alike, String.toList_append, Text.alikeChars_append_iff]
  split
  next hending => simp [ofLabelChars?_eq_some_iff, isLabelled_iff, hending]
  next hending => simp [hending]

theorem Labels.unique (ha : a.Labels ending key) (hb : b.Labels ending key) : a = b := by
  rw [← ofAttribute?_eq_some_iff] at ha hb
  rw [ha] at hb
  exact Option.some.inj hb

/-! ### Attribute names by octets -/

/-- The algorithm of an attribute name, cut in front of as many octets as the ending has. There is
no answer if a slice is asked for that does not exist. -/
def ofAttributeSliced? (key ending : String) : Option (Option Algorithm) :=
  if key.utf8ByteSize ≤ ending.utf8ByteSize then some none
  else
    let cut := key.utf8ByteSize - ending.utf8ByteSize
    if Text.isBoundary key cut then do
      let found ← Text.sliceFrom? key cut
      if Text.alike found ending then
        let label ← Text.sliceTo? key cut
        some (ofLabel? label)
      else some none
    else some none

section Sliced

variable {front back : String}

/-- What stands before the ending is the label. -/
theorem ofAttribute?_append (h : Text.alike back ending = true) :
    ofAttribute? (front ++ back) ending = ofLabel? front := by
  have hlength : back.toList.length = ending.toList.length := Text.alikeChars_length h
  have hcut : (front ++ back).toList.length - ending.toList.length = front.toList.length := by
    rw [String.toList_append, List.length_append, hlength, Nat.add_sub_cancel]
  rw [ofAttribute?, hcut, String.toList_append, List.drop_left, List.take_left, ← Text.alike,
    if_pos h, ofLabel?]

/-- An attribute name of an algorithm is a label, which is not empty, and the ending. -/
theorem exists_parts_of_ofAttribute? (h : ofAttribute? key ending = some a) :
    ∃ front back, key = front ++ back ∧ front ≠ "" ∧ Text.alike back ending = true := by
  obtain ⟨spelling, hspelling, halike⟩ := ofAttribute?_eq_some_iff.1 h
  obtain ⟨front, back, rfl, hfront, hback⟩ := Text.alike_append_iff.1 halike
  refine ⟨front, back, rfl, ?_, hback⟩
  have hsome : ∀ a ∈ all, ∀ spelling ∈ a.spellings, Text.alike "" spelling = false := by decide
  rintro rfl
  rw [hsome a (mem_all a) spelling hspelling] at hfront
  cases hfront

theorem ofAttributeSliced?_append (hfront : front ≠ "") (h : Text.alike back ending = true) :
    ofAttributeSliced? (front ++ back) ending = some (ofLabel? front) := by
  have hsize : (front ++ back).utf8ByteSize = front.utf8ByteSize + ending.utf8ByteSize := by
    rw [String.utf8ByteSize_append, Text.utf8ByteSize_eq_of_alike h]
  have hpositive : front.utf8ByteSize ≠ 0 := mt String.utf8ByteSize_eq_zero_iff.1 hfront
  have hcut : (front ++ back).utf8ByteSize - ending.utf8ByteSize = front.utf8ByteSize := by
    rw [hsize, Nat.add_sub_cancel]
  have hboundary := Text.isBoundary_iff.2 ⟨front, back, rfl, rfl⟩
  rw [ofAttributeSliced?, if_neg (by omega)]
  simp only [hcut, hboundary, if_pos, Text.sliceFrom?_append, Text.sliceTo?_append, h,
    Option.bind_eq_bind, Option.bind_some]

/-- Cutting by octets never asks for a slice that does not exist, and finds the algorithm that
cutting by characters finds. -/
theorem ofAttributeSliced?_eq (key ending : String) :
    ofAttributeSliced? key ending = some (ofAttribute? key ending) := by
  by_cases hparts : ∃ front back, key = front ++ back ∧ front ≠ "" ∧ Text.alike back ending = true
  · obtain ⟨front, back, rfl, hfront, hback⟩ := hparts
    rw [ofAttributeSliced?_append hfront hback, ofAttribute?_append hback]
  · have hnone : ofAttribute? key ending = none :=
      Option.eq_none_iff_forall_ne_some.2 fun a h => hparts (exists_parts_of_ofAttribute? h)
    rw [hnone, ofAttributeSliced?]
    split
    next => rfl
    next hlong =>
      dsimp only
      split
      next hboundary =>
        obtain ⟨front, back, rfl, hsize⟩ := Text.isBoundary_iff.1 hboundary
        have hfront : front ≠ "" := by
          rintro rfl
          rw [String.utf8ByteSize_empty] at hsize
          omega
        have hback : Text.alike back ending = false := by
          by_contra h
          exact hparts ⟨front, back, rfl, hfront, Bool.of_not_eq_false h⟩
        simp only [← hsize, Text.sliceFrom?_append, hback, Option.bind_eq_bind, Option.bind_some,
          Bool.false_eq_true, if_false]
      next => rfl

end Sliced

/-! ### Endings -/

/-- The endings of the attributes in which digests are stated. -/
def endings : List String :=
  ["-Digest", "-Digest-Manifest", "-Digest-Manifest-Main-Attributes"]

/-- None of them ends with another one, in whatever case. -/
theorem not_suffix_endings : ∀ ending ∈ endings, ∀ other ∈ endings, ending ≠ other →
    ¬ Text.folded ending.toList <:+ Text.folded other.toList := by
  decide

theorem Labels.suffix (h : a.Labels ending key) :
    Text.folded ending.toList <:+ Text.folded key.toList := by
  obtain ⟨spelling, _, halike⟩ := h
  rw [Text.alike_iff.1 halike, String.toList_append, Text.folded_append]
  exact List.suffix_append _ _

/-- No attribute name has two of the endings, because of two endings of one name one ends with the
other. -/
theorem ending_unique {other : String} (hending : ending ∈ endings) (hother : other ∈ endings)
    (ha : ofAttribute? key ending = some a) (hb : ofAttribute? key other = some b) :
    ending = other := by
  have hthis := (ofAttribute?_eq_some_iff.1 ha).suffix
  have hthat := (ofAttribute?_eq_some_iff.1 hb).suffix
  by_contra hne
  rcases List.suffix_or_suffix_of_suffix hthis hthat with hsuffix | hsuffix
  · exact not_suffix_endings ending hending other hother hne hsuffix
  · exact not_suffix_endings other hother ending hending (Ne.symm hne) hsuffix

/-! ### Object identifiers -/

theorem oid_inj : ∀ a ∈ all, ∀ b ∈ all, a.oid = b.oid → a = b := by
  decide

theorem ofOid?_eq_some_iff {oid : Asn1.Oid} : ofOid? oid = some a ↔ a.oid = oid := by
  rw [ofOid?]
  constructor
  · intro h
    have hfound := List.find?_some h
    exact of_decide_eq_true hfound
  · rintro rfl
    obtain ⟨b, hb⟩ : ∃ b, all.find? (fun b => b.oid = a.oid) = some b :=
      Option.isSome_iff_exists.1 (List.find?_isSome.2 ⟨a, mem_all a, by simp⟩)
    have hsame := List.find?_some hb
    rw [hb, oid_inj b (mem_all b) a (mem_all a) (of_decide_eq_true hsame)]

end JarSigners.Digest.Algorithm
