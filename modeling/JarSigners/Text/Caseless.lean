/-!
# Text up to ASCII case

Entry names, attribute names and algorithm names are compared with the 26 ASCII letters
folded together and every other character taken as it is. Two texts that are alike have the
same number of characters, and the same number of UTF-8 octets, so a cut at a character is
the same cut in both.
-/

set_option autoImplicit false

namespace JarSigners.Text

/-- A text's characters with ASCII capitals made small. -/
def folded (text : List Char) : List Char :=
  text.map Char.toLower

/-- Whether two character lists differ at most in ASCII case. -/
def alikeChars (a b : List Char) : Bool :=
  folded a == folded b

/-- Whether two texts differ at most in ASCII case. -/
def alike (a b : String) : Bool :=
  alikeChars a.toList b.toList

/-- ASCII capitals throughout. -/
def capitals (text : String) : String :=
  String.ofList (text.toList.map Char.toUpper)

/-- The parts before and after the last occurrence of a character. -/
def cutAtLast (mark : Char) : List Char → Option (List Char × List Char)
  | [] => none
  | c :: rest =>
    match cutAtLast mark rest with
    | some (before, after) => some (c :: before, after)
    | none => if c = mark then some ([], rest) else none

theorem length_folded (text : List Char) : (folded text).length = text.length := by
  simp [folded]

theorem alikeChars_iff {a b : List Char} : alikeChars a b = true ↔ folded a = folded b := by
  simp [alikeChars]

theorem alikeChars_length {a b : List Char} (h : alikeChars a b = true) :
    a.length = b.length := by
  rw [← length_folded a, ← length_folded b, alikeChars_iff.1 h]

/-- A text is alike to one of two parts if it can be cut into parts that are alike, and the cut
is found by counting from the end. -/
theorem alikeChars_append_iff {text front back : List Char} :
    alikeChars text (front ++ back) = true ↔
      alikeChars (text.drop (text.length - back.length)) back = true ∧
        alikeChars (text.take (text.length - back.length)) front = true := by
  simp only [alikeChars_iff, folded, List.map_append]
  constructor
  · intro h
    have hlength : text.length - back.length = (front.map Char.toLower).length := by
      have := congrArg List.length h
      simp only [List.length_map, List.length_append] at this ⊢
      omega
    rw [hlength, List.map_drop, List.map_take, h]
    exact ⟨List.drop_left, List.take_left⟩
  · rintro ⟨hback, hfront⟩
    rw [← hfront, ← hback, ← List.map_append, List.take_append_drop]

theorem alike_refl (a : String) : alike a a = true := by
  simp [alike, alikeChars]

theorem alike_comm (a b : String) : alike a b = alike b a := by
  simp only [alike, alikeChars]
  exact BEq.comm

theorem alike_trans {a b c : String} (hab : alike a b = true) (hbc : alike b c = true) :
    alike a c = true := by
  simp_all [alike, alikeChars]

/-- A cut at the last mark loses nothing, and no mark comes after it. -/
theorem cutAtLast_eq_some {mark : Char} {text before after : List Char}
    (h : cutAtLast mark text = some (before, after)) :
    text = before ++ mark :: after ∧ mark ∉ after := by
  induction text generalizing before after with
  | nil => simp [cutAtLast] at h
  | cons c rest ih =>
    rw [cutAtLast] at h
    cases hr : cutAtLast mark rest with
    | some parts =>
      obtain ⟨b, a⟩ := parts
      simp only [hr, Option.some.injEq, Prod.mk.injEq] at h
      obtain ⟨rfl, rfl⟩ := h
      obtain ⟨hrest, hno⟩ := ih hr
      exact ⟨by simp [hrest], hno⟩
    | none =>
      simp only [hr] at h
      split at h
      next hc =>
        simp only [Option.some.injEq, Prod.mk.injEq] at h
        obtain ⟨rfl, rfl⟩ := h
        refine ⟨by simp [hc], ?_⟩
        clear ih
        induction rest with
        | nil => simp
        | cons d r ih' =>
          rw [cutAtLast] at hr
          cases hd : cutAtLast mark r with
          | some parts => simp [hd] at hr
          | none =>
            simp only [hd] at hr
            split at hr
            · simp at hr
            next hne =>
              simp only [List.mem_cons, not_or]
              exact ⟨fun he => hne he.symm, ih' hd⟩
      next => simp at h

end JarSigners.Text
