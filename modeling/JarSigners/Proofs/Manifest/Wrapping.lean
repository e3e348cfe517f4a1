import JarSigners.Proofs.Manifest.Written

/-!
# How headers are wrapped

A header is written in turns: as many octets as fit on the line that is begun, and then either the
end of the last line or a continuation. Each turn writes one line of those that remain
(`Wrapping.turn_more`), so there are as many turns as lines. A line is followed by another one only
if it is full, and none is begun unless an octet is left for it.
-/

set_option autoImplicit false

namespace JarSigners

namespace ManifestDraft

open Manifest

/-! ### Full lines -/

theorem continuationLines_eq_nil_iff {octets : Bytes} :
    continuationLines octets = [] ↔ octets = [] := by
  cases octets with
  | nil => simp [continuationLines]
  | cons b rest => simp [continuationLines]

/-- All lines but the last have a property if the first one has it whenever others follow, and all
but the last of those have it. -/
theorem forall_mem_dropLast_cons {P : Bytes → Prop} {first : Bytes} {rest : List Bytes}
    (hfirst : rest ≠ [] → P first) (hrest : ∀ line ∈ rest.dropLast, P line) :
    ∀ line ∈ (first :: rest).dropLast, P line := by
  cases rest with
  | nil => exact fun line hline => absurd hline List.not_mem_nil
  | cons next rest =>
    rw [List.dropLast_cons_cons, List.forall_mem_cons]
    exact ⟨hfirst (List.cons_ne_nil _ _), hrest⟩

theorem length_take_of_drop {octets : Bytes} {size : Nat} (h : octets.drop size ≠ []) :
    (octets.take size).length = size := by
  rw [ne_eq, List.drop_eq_nil_iff] at h
  rw [List.length_take]
  omega

theorem length_of_mem_dropLast_continuationLines (octets : Bytes) :
    ∀ line ∈ (continuationLines octets).dropLast, line.length = lineWidth := by
  fun_induction continuationLines octets with
  | case1 => simp
  | case2 b rest ih =>
    refine forall_mem_dropLast_cons (fun hmore => ?_) ih
    rw [List.length_cons, length_take_of_drop (mt continuationLines_eq_nil_iff.2 hmore)]
    rfl

/-- Every line of a header is full, except for the last one. -/
theorem length_of_mem_dropLast_headerLines (octets : Bytes) :
    ∀ line ∈ (headerLines octets).dropLast, line.length = lineWidth :=
  forall_mem_dropLast_cons
    (fun hmore => length_take_of_drop (mt continuationLines_eq_nil_iff.2 hmore))
    (length_of_mem_dropLast_continuationLines _)

theorem length_le_of_mem_headerLines (octets : Bytes) :
    ∀ line ∈ headerLines octets, line.length ≤ lineWidth :=
  List.forall_mem_cons.2
    ⟨List.length_take_le _ _, length_le_of_mem_continuationLines _⟩

/-! ### Writing in turns -/

/-- A header that is being written: what has been put out, what is left of the header, and how many
octets fit on the line that is begun. -/
structure Wrapping where
  out : Bytes
  rest : Bytes
  limit : Nat
  deriving DecidableEq, Repr

namespace Wrapping

/-- A header that is to be written behind some octets. -/
def begin (out : Bytes) (a : Attribute) : Wrapping :=
  ⟨out, headerOctets a, lineWidth⟩

/-- Put out what fits on the line. Either that was all, or a continuation is begun, whose leading
space counts. -/
def turn (w : Wrapping) : Bytes ⊕ Wrapping :=
  let size := min w.rest.length w.limit
  let out := w.out ++ w.rest.take size
  match w.rest.drop size with
  | [] => .inl (out ++ lineEnd)
  | b :: rest => .inr ⟨out ++ lineEnd ++ [32], b :: rest, lineWidth - 1⟩

/-- What has been put out when the header is written, if that takes no more than some turns. -/
def run : Nat → Wrapping → Option Bytes
  | 0, _ => none
  | turns + 1, w =>
    match w.turn with
    | .inl out => some out
    | .inr next => run turns next

/-- What is still to be written: the rest of the line that is begun, and its continuations. -/
def remaining (w : Wrapping) : List Bytes :=
  w.rest.take w.limit :: continuationLines (w.rest.drop w.limit)

variable {w : Wrapping}

theorem turn_eq : w.turn =
    match w.rest.drop w.limit with
    | [] => .inl (w.out ++ w.rest.take w.limit ++ lineEnd)
    | b :: rest => .inr
        ⟨w.out ++ w.rest.take w.limit ++ lineEnd ++ [32], b :: rest, lineWidth - 1⟩ := by
  have htake : w.rest.take (min w.rest.length w.limit) = w.rest.take w.limit := by
    rw [Nat.min_comm, ← List.take_eq_take_min]
  have hdrop : w.rest.drop (min w.rest.length w.limit) = w.rest.drop w.limit := by
    rw [Nat.min_comm, ← List.drop_eq_drop_min]
  rw [turn, htake, hdrop]

theorem turn_last (h : w.rest.drop w.limit = []) :
    w.turn = .inl (w.out ++ writtenLines w.remaining) ∧ w.remaining.length = 1 := by
  have hremaining : w.remaining = [w.rest.take w.limit] := by
    rw [remaining, h, continuationLines]
  rw [turn_eq, h, hremaining, writtenLines_cons]
  refine ⟨?_, rfl⟩
  simp [writtenLines]

/-- A turn that is not the last one writes one of the remaining lines. -/
theorem turn_more (h : w.rest.drop w.limit ≠ []) :
    ∃ next, w.turn = .inr next ∧ w.remaining.length = next.remaining.length + 1 ∧
      next.out ++ writtenLines next.remaining = w.out ++ writtenLines w.remaining := by
  obtain ⟨b, rest, hrest⟩ := List.exists_cons_of_ne_nil h
  refine ⟨_, by rw [turn_eq, hrest], ?_, ?_⟩
  · rw [remaining, hrest, continuationLines]
    rfl
  · rw [remaining, remaining, hrest, continuationLines, writtenLines_cons, writtenLines_cons,
      writtenLines_cons]
    simp

/-- A header is written in as many turns as there are lines, and not in fewer. -/
theorem run_eq (turns : Nat) : ∀ w : Wrapping,
    run turns w =
      if turns < w.remaining.length then none
      else some (w.out ++ writtenLines w.remaining) := by
  induction turns with
  | zero => exact fun w => (if_pos (Nat.succ_pos _)).symm
  | succ turns ih =>
    intro w
    by_cases h : w.rest.drop w.limit = []
    · obtain ⟨hturn, hlength⟩ := turn_last h
      rw [run, hturn, hlength, if_neg (by omega)]
    · obtain ⟨next, hturn, hlength, hout⟩ := turn_more h
      simp only [run, hturn, ih next, hlength, hout, Nat.add_lt_add_iff_right]

theorem run_begin (turns : Nat) (out : Bytes) (a : Attribute) :
    run turns (begin out a) =
      if turns < (headerLines (headerOctets a)).length then none
      else some (out ++ encodeHeader a) :=
  run_eq turns (begin out a)

end Wrapping

/-! ### The width of lines -/

/-- Headers respect the width of lines. A header without line endings in its key and its value is
written, behind whatever was written before, in as many turns as it has lines. Each line ends with
CR LF and has no more than 72 octets before that; all but the last have exactly 72; all but the
first begin with a space and have at least one octet more; and without the line endings and those
spaces the octets are those of the key, a colon and a space, and the value. -/
theorem headers_wrap_at_the_width {a : Attribute} (hkey : Text.OneLine a.1)
    (hvalue : Text.OneLine a.2) :
    ∃ first rest,
      (∀ turns out, Wrapping.run turns (.begin out a) =
        if turns < (first :: rest).length then none else some (out ++ encodeHeader a)) ∧
      encodeHeader a = (first :: rest).flatMap (· ++ [13, 10]) ∧
      Manifest.lines (encodeHeader a) = (first :: rest).map (fun text => ⟨text, .crlf⟩) ∧
      (∀ line ∈ first :: rest, line.length ≤ 72) ∧
      (∀ line ∈ (first :: rest).dropLast, line.length = 72) ∧
      (∀ line ∈ rest, ∃ b more, line = 32 :: b :: more) ∧
      first ++ rest.flatMap (List.drop 1) = Text.utf8 (a.1 ++ ": " ++ a.2) := by
  refine ⟨(headerOctets a).take lineWidth, continuationLines ((headerOctets a).drop lineWidth),
    fun turns out => Wrapping.run_begin turns out a, rfl,
    Manifest.lines_writtenLines (inLine_of_mem_headerLines hkey hvalue),
    length_le_of_mem_headerLines _, length_of_mem_dropLast_headerLines _,
    exists_cons_of_mem_continuationLines _, ?_⟩
  rw [flatMap_drop_continuationLines, List.take_append_drop]
  rfl

/-- A name of two octets to a character, which fills a line in the middle of one. -/
def umlauts : Attribute :=
  ("Name", "aüüüüüüüüüüüüüüüüüüüüüüüüüüüüüüüüüüüüüüüü")

theorem umlauts_wrap_at_the_width :
    ∃ first last, encodeHeader umlauts = first ++ [13, 10] ++ (last ++ [13, 10]) ∧
      first.length = 72 ∧ (∃ b more, last = 32 :: b :: more) ∧
      first ++ last.drop 1 = Text.utf8 (umlauts.1 ++ ": " ++ umlauts.2) := by
  obtain ⟨first, rest, hrun, hencode, -, -, hfull, hspace, hjoined⟩ :=
    headers_wrap_at_the_width (a := umlauts) (by decide) (by decide)
  have hone : Wrapping.run 1 (.begin [] umlauts) = none := by
    rw [Wrapping.begin, headerOctets, Text.utf8_eq]
    rfl
  have htwo : Wrapping.run 2 (.begin [] umlauts) ≠ none := by
    rw [Wrapping.begin, headerOctets, Text.utf8_eq]
    decide
  have hlength : rest.length = 1 := by
    rw [hrun, List.length_cons] at hone htwo
    grind
  obtain ⟨last, rfl⟩ := List.length_eq_one_iff.1 hlength
  refine ⟨first, last, ?_, hfull first List.mem_cons_self, hspace last List.mem_cons_self, ?_⟩
  · rw [hencode, List.flatMap_cons, List.flatMap_singleton]
  · rw [List.flatMap_singleton] at hjoined
    exact hjoined

end ManifestDraft

end JarSigners
