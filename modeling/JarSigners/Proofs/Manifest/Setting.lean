import JarSigners.Proofs.Manifest.RoundTrip

/-!
# Setting attributes

Setting an attribute gives the first one with that key its value, in the first section of that name,
and adds what is missing behind the rest. So setting it again replaces the value
(`setAttribute_setAttribute`), what is looked up under other names stays the same
(`attributesOf?_set_of_ne`), and a draft that may be written stays one (`Printable.set`).
-/

set_option autoImplicit false

namespace JarSigners.ManifestDraft

/-! ### In one section -/

section Attributes

variable {key value : String} {attributes : List Attribute}

/-- The attribute is found with its value. -/
theorem find?_setAttribute (key value : String) (attributes : List Attribute) :
    ((setAttribute key value attributes).find? fun a => Text.alike a.1 key).map Prod.snd =
      some value := by
  induction attributes with
  | nil => rw [setAttribute, List.find?_cons_of_pos (by exact Text.alike_refl key), Option.map_some]
  | cons a rest ih =>
    obtain ⟨known, old⟩ := a
    rw [setAttribute]
    by_cases hknown : Text.alike known key = true
    · rw [if_pos hknown, List.find?_cons_of_pos (by exact hknown), Option.map_some]
    · rw [if_neg hknown, List.find?_cons_of_neg (by exact hknown), ih]

/-- Setting an attribute again replaces the value. -/
theorem setAttribute_setAttribute (key old value : String) (attributes : List Attribute) :
    setAttribute key value (setAttribute key old attributes) =
      setAttribute key value attributes := by
  induction attributes with
  | nil => simp only [setAttribute, Text.alike_refl, if_true]
  | cons a rest ih =>
    obtain ⟨known, older⟩ := a
    rw [setAttribute, setAttribute]
    by_cases hknown : Text.alike known key = true
    · rw [if_pos hknown, if_pos hknown, setAttribute, if_pos hknown]
    · rw [if_neg hknown, if_neg hknown, setAttribute, if_neg hknown, ih]

/-- The attributes of a section after one of them was set: the one that was set, and those that
were there and were not the first with its key. -/
theorem mem_setAttribute {a : Attribute} (h : a ∈ setAttribute key value attributes) :
    (Text.alike a.1 key = true ∧ a.2 = value) ∨
      ∃ before after, attributes = before ++ a :: after ∧
        (Text.alike a.1 key = false ∨ ∃ earlier ∈ before, Text.alike earlier.1 key = true) := by
  induction attributes with
  | nil =>
    rw [List.mem_singleton.1 h]
    exact Or.inl ⟨Text.alike_refl key, rfl⟩
  | cons first rest ih =>
    obtain ⟨known, old⟩ := first
    rw [setAttribute] at h
    by_cases hknown : Text.alike known key = true
    · rw [if_pos hknown, List.mem_cons] at h
      rcases h with rfl | hlater
      · exact Or.inl ⟨hknown, rfl⟩
      · obtain ⟨before, after, rfl⟩ := List.append_of_mem hlater
        exact Or.inr ⟨(known, old) :: before, after, rfl,
          Or.inr ⟨_, List.mem_cons_self, hknown⟩⟩
    · rw [if_neg hknown, List.mem_cons] at h
      rcases h with rfl | hlater
      · exact Or.inr ⟨[], rest, rfl, Or.inl (Bool.eq_false_iff.2 hknown)⟩
      · rcases ih hlater with hset | ⟨before, after, rfl, hkept⟩
        · exact Or.inl hset
        · refine Or.inr ⟨(known, old) :: before, after, rfl, hkept.imp_right ?_⟩
          rintro ⟨earlier, hmem, halike⟩
          exact ⟨earlier, List.mem_cons_of_mem _ hmem, halike⟩

theorem writable_setAttribute (hset : Attribute.Writable (key, value))
    (h : ∀ a ∈ attributes, a.Writable) : ∀ a ∈ setAttribute key value attributes, a.Writable := by
  induction attributes with
  | nil => exact List.forall_mem_singleton.2 hset
  | cons first rest ih =>
    obtain ⟨known, old⟩ := first
    obtain ⟨hfirst, hrest⟩ := List.forall_mem_cons.1 h
    rw [setAttribute]
    by_cases hknown : Text.alike known key = true
    · rw [if_pos hknown, List.forall_mem_cons]
      exact ⟨hfirst.withValue hset.value, hrest⟩
    · rw [if_neg hknown, List.forall_mem_cons]
      exact ⟨hfirst, ih hrest⟩

end Attributes

/-! ### In a draft -/

/-- The attributes of the first section of a name. -/
def attributesOf? (d : ManifestDraft) (name : String) : Option (List Attribute) :=
  (d.sections.find? fun s => s.1 = name).map Prod.snd

section Sections

variable {sections : List (String × List Attribute)} {d : ManifestDraft}
  {name other key value : String} {attributes : List Attribute}

theorem find?_setInSections (name key value : String) (sections : List (String × List Attribute)) :
    (setInSections name key value sections).find? (fun s => s.1 = name) =
      some (name, setAttribute key value
        (((sections.find? fun s => s.1 = name).map Prod.snd).getD [])) := by
  induction sections with
  | nil => rw [setInSections, List.find?_cons_of_pos (by simp)]; rfl
  | cons s rest ih =>
    obtain ⟨known, attributes⟩ := s
    rw [setInSections]
    by_cases hknown : known = name
    · simp [hknown]
    · rw [if_neg hknown, List.find?_cons_of_neg (by simpa using hknown), ih,
        List.find?_cons_of_neg (by simpa using hknown)]

theorem find?_setInSections_of_ne (h : other ≠ name) :
    (setInSections name key value sections).find? (fun s => s.1 = other) =
      sections.find? fun s => s.1 = other := by
  have hname : name ≠ other := Ne.symm h
  induction sections with
  | nil => simp [setInSections, hname]
  | cons s rest ih =>
    obtain ⟨known, attributes⟩ := s
    rw [setInSections]
    by_cases hknown : known = name
    · simp [hknown, hname]
    · rw [if_neg hknown, List.find?_cons, List.find?_cons, ih]

theorem attributesOf?_set (d : ManifestDraft) (name key value : String) :
    (d.set name key value).attributesOf? name =
      some (setAttribute key value ((d.attributesOf? name).getD [])) := by
  rw [attributesOf?, set, find?_setInSections, Option.map_some, attributesOf?]

/-- What is looked up under other names stays the same. -/
theorem attributesOf?_set_of_ne (h : other ≠ name) :
    (d.set name key value).attributesOf? other = d.attributesOf? other := by
  rw [attributesOf?, set, find?_setInSections_of_ne h, attributesOf?]

theorem setInSections_eq_self
    (hfound : sections.find? (fun s => s.1 = name) = some (name, attributes))
    (hset : setAttribute key value attributes = attributes) :
    setInSections name key value sections = sections := by
  induction sections with
  | nil => cases hfound
  | cons s rest ih =>
    obtain ⟨known, first⟩ := s
    rw [setInSections]
    by_cases hknown : known = name
    · rw [List.find?_cons_of_pos (by simpa using hknown), Option.some.injEq,
        Prod.mk.injEq] at hfound
      rw [if_pos hknown, hfound.2, hset]
    · rw [List.find?_cons_of_neg (by simpa using hknown)] at hfound
      rw [if_neg hknown, ih hfound]

/-- Setting what is set already changes nothing. -/
theorem set_eq_self (hfound : d.attributesOf? name = some attributes)
    (hset : setAttribute key value attributes = attributes) : d.set name key value = d := by
  obtain ⟨⟨known, _⟩, hsection, rfl⟩ := Option.map_eq_some_iff.1 hfound
  obtain rfl : known = name := by simpa using List.find?_some hsection
  rw [set, setInSections_eq_self hsection hset]

/-- A section that was there or was set. -/
theorem mem_setInSections {s : String × List Attribute}
    (h : s ∈ setInSections name key value sections) :
    s ∈ sections ∨ ∃ base, s = (name, setAttribute key value base) ∧
      (base = [] ∨ (name, base) ∈ sections) := by
  induction sections with
  | nil => exact Or.inr ⟨[], List.mem_singleton.1 h, Or.inl rfl⟩
  | cons first rest ih =>
    obtain ⟨known, attributes⟩ := first
    rw [setInSections] at h
    by_cases hknown : known = name
    · rw [if_pos hknown, List.mem_cons] at h
      rcases h with rfl | hlater
      · exact Or.inr ⟨attributes, by rw [hknown], Or.inr (by simp [hknown])⟩
      · exact Or.inl (List.mem_cons_of_mem _ hlater)
    · rw [if_neg hknown, List.mem_cons] at h
      rcases h with rfl | hlater
      · exact Or.inl List.mem_cons_self
      · rcases ih hlater with hmem | ⟨base, hs, hbase⟩
        · exact Or.inl (List.mem_cons_of_mem _ hmem)
        · exact Or.inr ⟨base, hs, hbase.imp_right (List.mem_cons_of_mem _)⟩

theorem names_setInSections (name key value : String)
    (sections : List (String × List Attribute)) :
    (setInSections name key value sections).map Prod.fst =
      if name ∈ sections.map Prod.fst then sections.map Prod.fst
      else sections.map Prod.fst ++ [name] := by
  induction sections with
  | nil => rfl
  | cons s rest ih =>
    obtain ⟨known, attributes⟩ := s
    rw [setInSections]
    by_cases hknown : known = name
    · simp [hknown]
    · have hother : ¬ name = known := fun h => hknown h.symm
      simp only [if_neg hknown, List.map_cons, ih, List.mem_cons, hother, false_or]
      split <;> rfl

end Sections

/-! ### Drafts that may be written -/

/-- A draft of attributes that may be written. Its main section may lack attributes or be taken for
a named one. -/
structure Printable (d : ManifestDraft) : Prop where
  main : ∀ a ∈ d.main, a.Writable
  names : ∀ s ∈ d.sections, Text.OneLine s.1
  sections : ∀ s ∈ d.sections, ∀ a ∈ s.2, a.Writable

section Written

variable {d : ManifestDraft} {name key value : String}

theorem Writable.printable (h : d.Writable) : d.Printable :=
  ⟨h.main, h.names, h.sections⟩

theorem Printable.set (h : d.Printable) (hname : Text.OneLine name)
    (hset : Attribute.Writable (key, value)) : (d.set name key value).Printable where
  main := h.main
  names := by
    intro s hs
    rcases mem_setInSections hs with hmem | ⟨base, rfl, _⟩
    · exact h.names s hmem
    · exact hname
  sections := by
    intro s hs
    rcases mem_setInSections hs with hmem | ⟨base, rfl, hbase⟩
    · exact h.sections s hmem
    · refine writable_setAttribute hset ?_
      rcases hbase with rfl | hbase
      · exact fun _ ha => absurd ha List.not_mem_nil
      · exact h.sections _ hbase

end Written

end JarSigners.ManifestDraft
