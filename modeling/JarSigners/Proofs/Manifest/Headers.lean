import JarSigners.Manifest.Basic
import JarSigners.Proofs.Text.Utf8
import Mathlib.Data.List.Infix

/-!
# What a header states

A header is UTF-8 text that is cut at the first colon and space. It states one attribute, or it is
no text, or it has no colon and space; reading it tells these cases apart.
-/

set_option autoImplicit false

namespace JarSigners.Manifest

/-- A key and its value are cut at the colon between them. -/
theorem cutAtColon_key {key : List Char} (hkey : ¬ [':', ' '] <:+: key) (value done : List Char) :
    cutAtColon done (key ++ ':' :: ' ' :: value) = some (done.reverse ++ key, value) := by
  induction key generalizing done with
  | nil => rw [List.nil_append, cutAtColon, List.append_nil]
  | cons c key ih =>
    have hrest : ¬ [':', ' '] <:+: key := fun h => hkey (h.trans (List.suffix_cons c key).isInfix)
    rw [List.cons_append, cutAtColon, ih hrest, List.reverse_cons, List.append_assoc,
      List.singleton_append]
    -- The colon and space are not found any earlier.
    rintro later rfl hlater
    cases key with
    | nil => simp at hlater
    | cons d key =>
      rw [List.cons_append, List.cons.injEq] at hlater
      obtain ⟨rfl, _⟩ := hlater
      exact hkey ⟨[], key, rfl⟩

/-- Nothing in front of the cut holds a colon and space, and nothing at all where there is none. -/
theorem cutAtColon_spec (done text : List Char) :
    match cutAtColon done text with
    | some (key, value) => ∃ k, key = done.reverse ++ k ∧ text = k ++ ':' :: ' ' :: value ∧
        ¬ [':', ' '] <:+: k
    | none => ¬ [':', ' '] <:+: text := by
  fun_induction cutAtColon done text with
  | case1 done => simp
  | case2 done value => exact ⟨[], by simp, rfl, by simp⟩
  | case3 done c rest hfirst ih =>
    -- A colon and space at the front would have been the case before.
    have hlater : ∀ text : List Char, (∀ later, c = ':' → text = ' ' :: later → False) →
        ([':', ' '] <:+: c :: text ↔ [':', ' '] <:+: text) := by
      intro text hnot
      rw [List.infix_cons_iff]
      refine or_iff_right fun hprefix => ?_
      obtain ⟨later, hlater⟩ := hprefix
      rw [List.cons_append, List.cons.injEq] at hlater
      exact hnot later hlater.1.symm hlater.2.symm
    cases hcut : cutAtColon (c :: done) rest with
    | none =>
      rw [hcut] at ih
      rwa [hlater rest hfirst]
    | some parts =>
      obtain ⟨key, value⟩ := parts
      rw [hcut] at ih
      obtain ⟨k, rfl, hrest, hk⟩ := ih
      refine ⟨c :: k, by simp, by simp [hrest], ?_⟩
      rwa [hlater k]
      rintro later rfl rfl
      exact hfirst _ rfl hrest

theorem cutAtColon_eq_none_iff {text : List Char} :
    cutAtColon [] text = none ↔ ¬ [':', ' '] <:+: text := by
  have hspec := cutAtColon_spec [] text
  cases hcut : cutAtColon [] text with
  | none =>
    rw [hcut] at hspec
    simpa using hspec
  | some parts =>
    rw [hcut] at hspec
    obtain ⟨k, -, htext, -⟩ := hspec
    simp only [reduceCtorEq, false_iff, not_not, htext]
    exact ⟨k, parts.2, by simp⟩

theorem cutAtColon_eq_some_iff {text key value : List Char} :
    cutAtColon [] text = some (key, value) ↔
      text = key ++ ':' :: ' ' :: value ∧ ¬ [':', ' '] <:+: key := by
  constructor
  · intro hcut
    have hspec := cutAtColon_spec [] text
    rw [hcut] at hspec
    obtain ⟨k, rfl, htext, hk⟩ := hspec
    exact ⟨htext, hk⟩
  · rintro ⟨rfl, hkey⟩
    simpa using cutAtColon_key hkey value []

namespace Header

variable {h : Header} {a : Attribute} {defect : ManifestDefect}

/-- The octets of a header are the text of an attribute, the key and the value with a colon and a
space between them, and the key holds none. -/
def States (h : Header) (a : Attribute) : Prop :=
  h.octets = Text.utf8 (a.1 ++ ": " ++ a.2) ∧ ¬ [':', ' '] <:+: a.1.toList

/-- What is wrong with a header that states nothing. -/
inductive Spoiled (h : Header) : ManifestDefect → Prop
  | noText (hnone : ∀ text, Text.utf8 text ≠ h.octets) : Spoiled h (.invalidUtf8 h.number)
  | noColon {text : String} (htext : Text.utf8 text = h.octets)
    (hnone : ¬ [':', ' '] <:+: text.toList) : Spoiled h (.invalidHeader h.number)

theorem attribute?_eq_ok_iff : h.attribute? = .ok a ↔ h.States a := by
  have hchars : (a.1 ++ ": " ++ a.2).toList = a.1.toList ++ ':' :: ' ' :: a.2.toList := by
    simp [String.toList_append]
  unfold attribute? States
  constructor
  · intro hread
    split at hread
    · cases hread
    next text htext =>
      split at hread
      · cases hread
      next key value hcut =>
        cases hread
        obtain ⟨hsplit, hkey⟩ := cutAtColon_eq_some_iff.1 hcut
        rw [Text.ofUtf8?_eq_some_iff] at htext
        refine ⟨?_, by simpa using hkey⟩
        rw [← htext]
        congr 1
        apply String.ext
        simpa using hsplit
  · rintro ⟨hoctets, hkey⟩
    rw [hoctets, Text.ofUtf8?_utf8]
    dsimp only
    rw [hchars, cutAtColon_eq_some_iff.2 ⟨rfl, hkey⟩]
    simp

theorem attribute?_eq_error_iff : h.attribute? = .error defect ↔ h.Spoiled defect := by
  unfold attribute?
  constructor
  · intro hread
    split at hread
    next hnone =>
      cases hread
      refine .noText fun text htext => ?_
      rw [Text.ofUtf8?_eq_some_iff.2 htext] at hnone
      cases hnone
    next text htext =>
      split at hread
      next hcut =>
        cases hread
        exact .noColon (Text.ofUtf8?_eq_some_iff.1 htext) (cutAtColon_eq_none_iff.1 hcut)
      · cases hread
  · rintro (hnone | ⟨htext, hnone⟩)
    · cases hread : Text.ofUtf8? h.octets with
      | none => rfl
      | some text => exact absurd (Text.ofUtf8?_eq_some_iff.1 hread) (hnone text)
    · rw [Text.ofUtf8?_eq_some_iff.2 htext]
      dsimp only
      rw [cutAtColon_eq_none_iff.2 hnone]

/-- A header states an attribute if it is text with a colon and space. -/
theorem exists_states_iff :
    (∃ a, h.States a) ↔ ∃ text, Text.utf8 text = h.octets ∧ [':', ' '] <:+: text.toList := by
  constructor
  · rintro ⟨a, hoctets, -⟩
    refine ⟨_, hoctets.symm, a.1.toList, a.2.toList, ?_⟩
    simp [String.toList_append]
  · rintro ⟨text, htext, hcolon⟩
    cases hread : h.attribute? with
    | ok a => exact ⟨a, attribute?_eq_ok_iff.1 hread⟩
    | error defect =>
      cases attribute?_eq_error_iff.1 hread with
      | noText hnone => exact absurd htext (hnone text)
      | noColon htext' hnone =>
        obtain rfl := Option.some.inj ((Text.ofUtf8?_eq_some_iff.2 htext).symm.trans
          (Text.ofUtf8?_eq_some_iff.2 htext'))
        exact absurd hcolon hnone

theorem States.unique {a b : Attribute} (ha : h.States a) (hb : h.States b) : a = b :=
  Except.ok.inj ((attribute?_eq_ok_iff.2 ha).symm.trans (attribute?_eq_ok_iff.2 hb))

end Header

end JarSigners.Manifest
