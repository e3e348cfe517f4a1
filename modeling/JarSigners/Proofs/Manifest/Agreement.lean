import JarSigners.Manifest.Basic
import JarSigners.Proofs.Digest.Names
import Mathlib.Logic.Basic

/-!
# When stated digests agree

A section states the digests of some octets under attribute names that label an algorithm. It
confirms the octets if it states a digest and all that it states match, and it contradicts them
by the first attribute, in its order, that does not. Checking the digests tells exactly these
cases apart.
-/

set_option autoImplicit false

namespace JarSigners

open Digest (Algorithm)

variable {s : Section} {entry : Attribute} {ending : String} {octets : Bytes} {a : Algorithm}

/-- An attribute that states a digest states the one of these octets. -/
def Attribute.Matches (entry : Attribute) (ending : String) (octets : Bytes) : Prop :=
  ∀ a : Algorithm, a.Labels ending entry.1 → Base64.spells entry.2 (a.digest octets) = true

namespace Section

/-- Some attribute of a section states a digest. -/
def StatesDigest (s : Section) (ending : String) : Prop :=
  ∃ entry ∈ s.attributes, ∃ a : Algorithm, a.Labels ending entry.1

/-- Every digest that a section states is the one of these octets. -/
def Tolerates (s : Section) (ending : String) (octets : Bytes) : Prop :=
  ∀ entry ∈ s.attributes, Attribute.Matches entry ending octets

/-- A section states a digest, and every digest that it states is the one of these octets. -/
def Confirms (s : Section) (ending : String) (octets : Bytes) : Prop :=
  s.StatesDigest ending ∧ s.Tolerates ending octets

/-- The first attribute of a section that states a digest of other octets states it for this
algorithm. -/
def Contradicts (s : Section) (ending : String) (octets : Bytes) (a : Algorithm) : Prop :=
  ∃ before entry after, s.attributes = before ++ entry :: after ∧
    (∀ earlier ∈ before, Attribute.Matches earlier ending octets) ∧
    a.Labels ending entry.1 ∧ ¬ Attribute.Matches entry ending octets

end Section

/-- The digest that an attribute states. -/
def Attribute.stated? (entry : Attribute) (ending : String) : Option (Algorithm × String) :=
  (Algorithm.ofAttribute? entry.1 ending).map fun a => (a, entry.2)

theorem Attribute.stated?_eq_some_iff {d : Algorithm × String} :
    Attribute.stated? entry ending = some d ↔ d.1.Labels ending entry.1 ∧ d.2 = entry.2 := by
  obtain ⟨a, value⟩ := d
  simp only [stated?, Option.map_eq_some_iff, Algorithm.ofAttribute?_eq_some_iff, Prod.mk.injEq]
  constructor
  · rintro ⟨_, hlabel, rfl, rfl⟩
    exact ⟨hlabel, rfl⟩
  · rintro ⟨hlabel, rfl⟩
    exact ⟨a, hlabel, rfl, rfl⟩

theorem Section.digests_eq (s : Section) (ending : String) :
    s.digests ending = s.attributes.filterMap fun entry => Attribute.stated? entry ending :=
  rfl

/-- A stated digest is not the one of these octets. -/
def Agreement.objects (octets : Bytes) (d : Algorithm × String) : Bool :=
  !Base64.spells d.2 (d.1.digest octets)

theorem Attribute.any_objects_iff :
    (Attribute.stated? entry ending).any (Agreement.objects octets) = true ↔
      ¬ Attribute.Matches entry ending octets := by
  simp only [Option.any_eq_true, Attribute.stated?_eq_some_iff, Attribute.Matches, not_forall]
  constructor
  · rintro ⟨d, ⟨hlabel, hvalue⟩, hobjects⟩
    rw [Agreement.objects, hvalue, Bool.not_eq_true'] at hobjects
    exact ⟨d.1, hlabel, by simp [hobjects]⟩
  · rintro ⟨a, hlabel, hdiffers⟩
    exact ⟨(a, entry.2), ⟨hlabel, rfl⟩, by simpa [Agreement.objects] using hdiffers⟩

/-- The first stated digest that objects is stated by the first attribute that does not match. -/
theorem Section.find?_digests_eq_some_iff {d : Algorithm × String} :
    (s.digests ending).find? (Agreement.objects octets) = some d ↔
      ∃ before entry after, s.attributes = before ++ entry :: after ∧
        (∀ earlier ∈ before, Attribute.Matches earlier ending octets) ∧
        ¬ Attribute.Matches entry ending octets ∧ Attribute.stated? entry ending = some d := by
  rw [digests_eq, List.find?_filterMap, Option.bind_eq_some_iff]
  simp only [List.find?_eq_some_iff_append, Attribute.any_objects_iff, Bool.not_eq_true',
    ← Bool.not_eq_true, not_not]
  constructor
  · rintro ⟨entry, ⟨hdiffers, before, after, hsplit, hbefore⟩, hstated⟩
    exact ⟨before, entry, after, hsplit, hbefore, hdiffers, hstated⟩
  · rintro ⟨before, entry, after, hsplit, hbefore, hdiffers, hstated⟩
    exact ⟨entry, ⟨hdiffers, before, after, hsplit, hbefore⟩, hstated⟩

/-- No stated digest objects if every attribute matches. -/
theorem Section.find?_digests_eq_none_iff :
    (s.digests ending).find? (Agreement.objects octets) = none ↔ s.Tolerates ending octets := by
  rw [digests_eq, List.find?_eq_none, Tolerates]
  simp only [← Attribute.any_objects_iff.not_left, List.mem_filterMap, Option.any_eq_true]
  constructor
  · rintro h entry hentry ⟨d, hstated, hobjects⟩
    exact h d ⟨entry, hentry, hstated⟩ hobjects
  · rintro h d ⟨entry, hentry, hstated⟩ hobjects
    exact h entry hentry ⟨d, hstated, hobjects⟩

/-- The first stated digest that objects is for the algorithm of a contradiction. -/
theorem Section.map_find?_digests_eq_some_iff :
    ((s.digests ending).find? (Agreement.objects octets)).map Prod.fst = some a ↔
      s.Contradicts ending octets a := by
  simp only [Option.map_eq_some_iff, find?_digests_eq_some_iff, Attribute.stated?_eq_some_iff]
  constructor
  · rintro ⟨d, ⟨before, entry, after, hsplit, hbefore, hdiffers, hlabel, -⟩, rfl⟩
    exact ⟨before, entry, after, hsplit, hbefore, hlabel, hdiffers⟩
  · rintro ⟨before, entry, after, hsplit, hbefore, hlabel, hdiffers⟩
    exact ⟨(a, entry.2), ⟨before, entry, after, hsplit, hbefore, hdiffers, hlabel, rfl⟩, rfl⟩

theorem Section.digests_ne_nil_iff : s.digests ending ≠ [] ↔ s.StatesDigest ending := by
  rw [digests_eq, Ne, List.eq_nil_iff_forall_not_mem, not_forall_not, StatesDigest]
  simp only [List.mem_filterMap, Attribute.stated?_eq_some_iff]
  constructor
  · rintro ⟨d, entry, hentry, hlabel, -⟩
    exact ⟨entry, hentry, d.1, hlabel⟩
  · rintro ⟨entry, hentry, a, hlabel⟩
    exact ⟨(a, entry.2), entry, hentry, hlabel, rfl⟩

namespace Agreement

theorem of_eq (stated : List (Algorithm × String)) (octets : Bytes) :
    Agreement.of stated octets =
      match stated.find? (objects octets) with
      | some d => .differs d.1
      | none => if stated.isEmpty then .absent else .agrees := by
  have hobjects : (fun d : Algorithm × String => !Base64.spells d.2 (d.1.digest octets)) =
      objects octets := rfl
  rw [Agreement.of, hobjects]
  cases stated.find? (objects octets) <;> rfl

/-- The digests of a section agree if there are some and none objects. -/
theorem of_eq_agrees_iff :
    Agreement.of (s.digests ending) octets = .agrees ↔ s.Confirms ending octets := by
  rw [of_eq, Section.Confirms, ← Section.find?_digests_eq_none_iff, ← Section.digests_ne_nil_iff]
  cases (s.digests ending).find? (objects octets) with
  | some d => simp
  | none => simp

/-- The digests of a section differ by the first one that objects. -/
theorem of_eq_differs_iff :
    Agreement.of (s.digests ending) octets = .differs a ↔ s.Contradicts ending octets a := by
  rw [of_eq, ← Section.map_find?_digests_eq_some_iff]
  cases (s.digests ending).find? (objects octets) with
  | some d => simp
  | none => simp; split <;> simp

/-- Nothing is said of the octets where no digest is stated. -/
theorem of_eq_absent_iff :
    Agreement.of (s.digests ending) octets = .absent ↔ ¬ s.StatesDigest ending := by
  rw [← Section.digests_ne_nil_iff, not_not, of_eq]
  constructor
  · intro h
    cases hfirst : (s.digests ending).find? (objects octets) with
    | some d => simp [hfirst] at h
    | none => simpa [hfirst] using h
  · intro h
    simp [h]

end Agreement

end JarSigners
