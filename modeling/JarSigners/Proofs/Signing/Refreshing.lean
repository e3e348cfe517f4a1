import JarSigners.Proofs.Manifest.Setting
import JarSigners.Proofs.Signing.SignedDraft

/-!
# Digests that are stated anew

Signing states the digest of each file in the first section of its name (`attributesOf?_refreshed`).
Nothing else in the manifest changes, so a manifest in which these digests are stated already stays
as it is (`refreshed_refreshed`).
-/

set_option autoImplicit false

namespace JarSigners.ManifestDraft

variable {d : ManifestDraft} {files : List (String × Bytes)} {name : String} {content : Bytes}

theorem refreshed_cons (d : ManifestDraft) (f : String × Bytes) (files : List (String × Bytes)) :
    d.refreshed (f :: files) = (d.set f.1 digestKey (stated f.2)).refreshed files :=
  List.foldl_cons ..

/-! ### What is kept -/

theorem main_refreshed (d : ManifestDraft) (files : List (String × Bytes)) :
    (d.refreshed files).main = d.main := by
  induction files generalizing d with
  | nil => rfl
  | cons f files ih => rw [refreshed_cons, ih, set]

theorem writable_digest (octets : Bytes) : Attribute.Writable (digestKey, stated octets) :=
  writable_statement octets _ List.mem_cons_self

theorem Printable.refreshed (h : d.Printable) (hnames : ∀ f ∈ files, Text.OneLine f.1) :
    (d.refreshed files).Printable := by
  induction files generalizing d with
  | nil => exact h
  | cons f files ih =>
    obtain ⟨hname, hnames⟩ := List.forall_mem_cons.1 hnames
    rw [refreshed_cons]
    exact ih (h.set hname (writable_digest f.2)) hnames

theorem Writable.refreshed (h : d.Writable) (hnames : ∀ f ∈ files, Text.OneLine f.1) :
    (d.refreshed files).Writable where
  main_ne_nil := (main_refreshed d files).symm ▸ h.main_ne_nil
  unnamed := (main_refreshed d files).symm ▸ h.unnamed
  main := (main_refreshed d files).symm ▸ h.main
  names := (h.printable.refreshed hnames).names
  sections := (h.printable.refreshed hnames).sections

/-- What is looked up under the name of no file stays the same. -/
theorem attributesOf?_refreshed_of_not_mem (h : name ∉ files.map Prod.fst) :
    (d.refreshed files).attributesOf? name = d.attributesOf? name := by
  induction files generalizing d with
  | nil => rfl
  | cons f files ih =>
    rw [List.map_cons, List.mem_cons, not_or] at h
    rw [refreshed_cons, ih h.2, attributesOf?_set_of_ne h.1]

/-! ### What is stated -/

/-- The section of a file states the digest of its contents. -/
theorem attributesOf?_refreshed (hdistinct : (files.map Prod.fst).Nodup)
    (hfile : (name, content) ∈ files) :
    (d.refreshed files).attributesOf? name =
      some (setAttribute digestKey (stated content) ((d.attributesOf? name).getD [])) := by
  induction files generalizing d with
  | nil => exact absurd hfile List.not_mem_nil
  | cons f files ih =>
    rw [List.map_cons, List.nodup_cons] at hdistinct
    rw [refreshed_cons]
    rcases List.mem_cons.1 hfile with rfl | hlater
    · rw [attributesOf?_refreshed_of_not_mem hdistinct.1, attributesOf?_set]
    · have hother : name ≠ f.1 := by
        intro hname
        exact hdistinct.1 (hname ▸ List.mem_map_of_mem (f := Prod.fst) hlater)
      rw [ih hdistinct.2 hlater, attributesOf?_set_of_ne hother]

/-- Digests that are all stated already are stated again without a change. -/
theorem refreshed_eq_self (h : ∀ f ∈ files, d.set f.1 digestKey (stated f.2) = d) :
    d.refreshed files = d := by
  induction files with
  | nil => rfl
  | cons f files ih =>
    obtain ⟨hfirst, hrest⟩ := List.forall_mem_cons.1 h
    rw [refreshed_cons, hfirst, ih hrest]

/-- Stating the digests of the same files again changes nothing. -/
theorem refreshed_refreshed (hdistinct : (files.map Prod.fst).Nodup) :
    (d.refreshed files).refreshed files = d.refreshed files := by
  refine refreshed_eq_self fun f hf => ?_
  exact set_eq_self (attributesOf?_refreshed hdistinct hf) (setAttribute_setAttribute _ _ _ _)

end JarSigners.ManifestDraft
