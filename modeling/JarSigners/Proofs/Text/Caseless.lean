import JarSigners.Text.Caseless

/-!
# Folding and cutting

Folding changes letters only, so a text is cut at the same mark before and after folding
(`cutAtLast_folded`), and capitals and small letters fold to the same. Texts that are alike consist
of parts that are alike (`alike_append_iff`).
-/

set_option autoImplicit false

namespace JarSigners.Text

/-! ### Capitals -/

theorem toNat_toUpper (c : Char) :
    c.toUpper.toNat = if 97 ≤ c.toNat ∧ c.toNat ≤ 122 then c.toNat - 32 else c.toNat := by
  have hsmall : ('a'.val ≤ c.val ∧ c.val ≤ 'z'.val) ↔ 97 ≤ c.toNat ∧ c.toNat ≤ 122 := Iff.rfl
  by_cases h : 97 ≤ c.toNat ∧ c.toNat ≤ 122
  · have hshift : ('A'.val - 'a'.val).toNat = 2 ^ 32 - 32 := rfl
    have hchanged : c.toUpper = ⟨c.val + ('A'.val - 'a'.val), _⟩ := dif_pos (hsmall.2 h)
    have hval : c.toUpper.toNat = (c.val + ('A'.val - 'a'.val)).toNat := by
      rw [hchanged]
      rfl
    have hchar : c.val.toNat = c.toNat := rfl
    rw [if_pos h, hval, UInt32.toNat_add, hshift, hchar]
    omega
  · have hsame : c.toUpper = c := dif_neg fun hc => h (hsmall.1 hc)
    rw [if_neg h, hsame]

theorem toNat_toLower (c : Char) :
    c.toLower.toNat = if 65 ≤ c.toNat ∧ c.toNat ≤ 90 then c.toNat + 32 else c.toNat := by
  have hcapital : ('A'.val ≤ c.val ∧ c.val ≤ 'Z'.val) ↔ 65 ≤ c.toNat ∧ c.toNat ≤ 90 := Iff.rfl
  by_cases h : 65 ≤ c.toNat ∧ c.toNat ≤ 90
  · have hshift : ('a'.val - 'A'.val).toNat = 32 := rfl
    have hchanged : c.toLower = ⟨c.val + ('a'.val - 'A'.val), _⟩ := dif_pos (hcapital.2 h)
    have hval : c.toLower.toNat = (c.val + ('a'.val - 'A'.val)).toNat := by
      rw [hchanged]
      rfl
    have hchar : c.val.toNat = c.toNat := rfl
    rw [if_pos h, hval, UInt32.toNat_add, hshift, hchar]
    omega
  · have hsame : c.toLower = c := dif_neg fun hc => h (hcapital.1 hc)
    rw [if_neg h, hsame]

theorem toLower_toUpper (c : Char) : c.toUpper.toLower = c.toLower := by
  rw [← Char.toNat_inj, toNat_toLower, toNat_toLower, toNat_toUpper]
  grind

/-- A character in front of all letters is the capital of nothing but itself. -/
theorem toUpper_eq_iff {d : Char} (hd : d.toNat < 65) (c : Char) : c.toUpper = d ↔ c = d := by
  rw [← Char.toNat_inj, ← Char.toNat_inj, toNat_toUpper]
  split <;> omega

/-- Nor does folding make it of anything else. -/
theorem toLower_eq_iff {d : Char} (hd : d.toNat < 65) (c : Char) : c.toLower = d ↔ c = d := by
  rw [← Char.toNat_inj, ← Char.toNat_inj, toNat_toLower]
  split <;> omega

theorem toUpper_toLower (c : Char) : c.toLower.toUpper = c.toUpper := by
  rw [← Char.toNat_inj, toNat_toUpper, toNat_toUpper, toNat_toLower]
  grind

theorem toLower_toLower (c : Char) : c.toLower.toLower = c.toLower := by
  rw [← toLower_toUpper, toUpper_toLower, toLower_toUpper]

theorem folded_folded (text : List Char) : folded (folded text) = folded text := by
  rw [folded, folded, List.map_map]
  exact List.map_congr_left fun c _ => toLower_toLower c

theorem mem_folded_iff {d : Char} (hd : d.toNat < 65) {text : List Char} :
    d ∈ folded text ↔ d ∈ text := by
  simp only [folded, List.mem_map, toLower_eq_iff hd]
  constructor
  · rintro ⟨c, hc, rfl⟩
    exact hc
  · exact fun h => ⟨d, h, rfl⟩

theorem folded_append (a b : List Char) : folded (a ++ b) = folded a ++ folded b :=
  List.map_append

theorem folded_map_toUpper (text : List Char) : folded (text.map Char.toUpper) = folded text := by
  rw [folded, folded, List.map_map]
  exact List.map_congr_left fun c _ => toLower_toUpper c

theorem map_toUpper_folded (text : List Char) :
    (folded text).map Char.toUpper = text.map Char.toUpper := by
  rw [folded, List.map_map]
  exact List.map_congr_left fun c _ => toUpper_toLower c

theorem alike_iff {a b : String} : alike a b = true ↔ folded a.toList = folded b.toList := by
  simp [alike, alikeChars]

/-- A text that is alike to two parts consists of parts that are alike to them. -/
theorem alike_append_iff {text front back : String} :
    alike text (front ++ back) = true ↔
      ∃ first rest, text = first ++ rest ∧ alike first front = true ∧ alike rest back = true := by
  constructor
  · intro h
    rw [alike, String.toList_append, alikeChars_append_iff] at h
    refine ⟨String.ofList (text.toList.take (text.toList.length - back.toList.length)),
      String.ofList (text.toList.drop (text.toList.length - back.toList.length)), ?_, ?_, ?_⟩
    · rw [← String.ofList_append, List.take_append_drop, String.ofList_toList]
    · rw [alike, String.toList_ofList]
      exact h.2
    · rw [alike, String.toList_ofList]
      exact h.1
  · rintro ⟨first, rest, rfl, hfront, hback⟩
    rw [alike_iff] at hfront hback ⊢
    rw [String.toList_append, String.toList_append, folded_append, folded_append, hfront, hback]

/-! ### Cuts -/

theorem cutAtLast_eq_none {mark : Char} {text : List Char} (h : mark ∉ text) :
    cutAtLast mark text = none := by
  induction text with
  | nil => rfl
  | cons c rest ih =>
    rw [List.mem_cons, not_or] at h
    rw [cutAtLast, ih h.2, if_neg fun hc => h.1 hc.symm]

/-- What comes before a text does not move the last cut in it. -/
theorem cutAtLast_append {mark : Char} {text before after : List Char} (front : List Char)
    (h : cutAtLast mark text = some (before, after)) :
    cutAtLast mark (front ++ text) = some (front ++ before, after) := by
  induction front with
  | nil => exact h
  | cons c front ih => rw [List.cons_append, cutAtLast, ih]; rfl

/-- A text is cut at a mark behind which there is no other. -/
theorem cutAtLast_mark {mark : Char} {after : List Char} (h : mark ∉ after)
    (before : List Char) :
    cutAtLast mark (before ++ mark :: after) = some (before, after) := by
  have hcut : cutAtLast mark (mark :: after) = some ([], after) := by
    rw [cutAtLast, cutAtLast_eq_none h, if_pos rfl]
  rw [cutAtLast_append before hcut, List.append_nil]

/-- Folding a text folds its parts and leaves the cut where it was. -/
theorem cutAtLast_folded (text : List Char) :
    cutAtLast '.' (folded text) =
      (cutAtLast '.' text).map fun parts => (folded parts.1, folded parts.2) := by
  induction text with
  | nil => rfl
  | cons c rest ih =>
    have hcons : folded (c :: rest) = c.toLower :: folded rest := rfl
    rw [hcons, cutAtLast, cutAtLast, ih]
    cases hcut : cutAtLast '.' rest with
    | some parts => rfl
    | none =>
      by_cases hc : c = '.'
      · simp [hc]
        rfl
      · simp [hc, toLower_eq_iff (d := '.') (by decide)]

end JarSigners.Text
