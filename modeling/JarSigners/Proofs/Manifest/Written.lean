import JarSigners.Manifest.Draft
import JarSigners.Proofs.Manifest.Headers
import JarSigners.Proofs.Manifest.Sections

/-!
# How drafts are written

A written draft is lines that end with CR LF, and each section is the lines of its headers and an
empty one. A header is cut into lines wherever the width is reached; joining them gives the header
back, because no octet of a header ends a line and only continuations begin with a space. So the
paragraphs of a written draft are its sections, each in the range it was written to
(`mapM_section?_paragraphs`).
-/

set_option autoImplicit false

namespace JarSigners

/-! ### What may be written -/

/-- A text without line endings. -/
def Text.OneLine (text : String) : Prop :=
  '\r' ∉ text.toList ∧ '\n' ∉ text.toList

instance (text : String) : Decidable (Text.OneLine text) :=
  inferInstanceAs (Decidable (_ ∧ _))

/-- A key that is told from its value and that does not look like the continuation of a line. -/
structure Attribute.Writable (a : Attribute) : Prop where
  key : Text.OneLine a.1
  value : Text.OneLine a.2
  noColon : ¬ [':', ' '] <:+: a.1.toList
  noSpace : a.1.toList.head? ≠ some ' '

instance (a : Attribute) : Decidable a.Writable :=
  decidable_of_iff (Text.OneLine a.1 ∧ Text.OneLine a.2 ∧ ¬ [':', ' '] <:+: a.1.toList ∧
      a.1.toList.head? ≠ some ' ')
    ⟨fun ⟨hkey, hvalue, hcolon, hspace⟩ => ⟨hkey, hvalue, hcolon, hspace⟩,
      fun h => ⟨h.key, h.value, h.noColon, h.noSpace⟩⟩

/-- A key that can be written can be written with any value of one line. -/
theorem Attribute.Writable.withValue {key old value : String}
    (h : Attribute.Writable (key, old)) (hvalue : Text.OneLine value) :
    Attribute.Writable (key, value) :=
  ⟨h.key, hvalue, h.noColon, h.noSpace⟩

namespace Manifest

/-! ### Lines that end with CR LF -/

/-- A line as drafts are written. -/
def written (text : Bytes) : Line := ⟨text, .crlf⟩

/-- Lines as drafts are written. -/
def writtenLines (texts : List Bytes) : Bytes :=
  texts.flatMap (· ++ ManifestDraft.lineEnd)

theorem writtenLines_cons (text : Bytes) (texts : List Bytes) :
    writtenLines (text :: texts) = text ++ ManifestDraft.lineEnd ++ writtenLines texts :=
  List.flatMap_cons

theorem writtenLines_append (first second : List Bytes) :
    writtenLines (first ++ second) = writtenLines first ++ writtenLines second :=
  List.flatMap_append

theorem writtenLines_eq (texts : List Bytes) :
    writtenLines texts = linesOctets (texts.map written) := by
  rw [writtenLines, linesOctets, List.flatMap_map]
  rfl

theorem map_text_written (texts : List Bytes) : (texts.map written).map Line.text = texts := by
  rw [List.map_map]
  exact List.map_id texts

theorem separated_written {texts : List Bytes}
    (htexts : ∀ text ∈ texts, ∀ b ∈ text, inLine b = true) : Separated (texts.map written) := by
  induction texts with
  | nil => exact Separated.nil
  | cons text texts ih =>
    obtain ⟨htext, hrest⟩ := List.forall_mem_cons.1 htexts
    exact (ih hrest).cons htext (by simp [written]) (by simp [written])

/-- The lines of a written file are those it was written from. -/
theorem lines_writtenLines {texts : List Bytes}
    (htexts : ∀ text ∈ texts, ∀ b ∈ text, inLine b = true) :
    lines (writtenLines texts) = texts.map written := by
  rw [writtenLines_eq, lines_linesOctets (separated_written htexts)]

end Manifest

namespace ManifestDraft

open Manifest

/-! ### Headers -/

theorem headerOctets_eq (a : Attribute) :
    headerOctets a = Text.utf8 a.1 ++ 58 :: 32 :: Text.utf8 a.2 := by
  have hcolon : Text.utf8 ": " = [58, 32] := by
    rw [Text.utf8_eq]
    decide
  rw [headerOctets, Text.utf8_append, Text.utf8_append, hcolon, List.append_assoc]
  rfl

theorem headerOctets_ne_nil (a : Attribute) : headerOctets a ≠ [] := by
  rw [headerOctets_eq]
  exact List.append_ne_nil_of_right_ne_nil _ (List.cons_ne_nil _ _)

/-- No octet of a text without line endings ends a line. -/
theorem inLine_of_mem_utf8 {text : String} (h : Text.OneLine text) {b : UInt8}
    (hb : b ∈ Text.utf8 text) : inLine b = true := by
  have hnone : ∀ c : Char, c ∉ text.toList → c.toNat < 128 → b.toNat ≠ c.toNat := by
    intro c hc hsmall heq
    obtain ⟨d, hd, hdb⟩ := Text.mem_of_mem_utf8 hb (heq ▸ hsmall)
    have hsame : d = c := by
      rw [← Char.ofNat_toNat d, ← Char.ofNat_toNat c, hdb, heq]
    exact hc (hsame ▸ hd)
  have hcr := hnone '\r' h.1 (by decide)
  have hlf := hnone '\n' h.2 (by decide)
  rw [inLine, Bool.and_eq_true, bne_iff_ne, bne_iff_ne]
  constructor
  · rintro rfl
    exact hcr rfl
  · rintro rfl
    exact hlf rfl

theorem inLine_of_mem_headerOctets {a : Attribute} (hkey : Text.OneLine a.1)
    (hvalue : Text.OneLine a.2) : ∀ b ∈ headerOctets a, inLine b = true := by
  intro b hb
  rw [headerOctets_eq] at hb
  simp only [List.mem_append, List.mem_cons] at hb
  rcases hb with hb | rfl | rfl | hb
  · exact inLine_of_mem_utf8 hkey hb
  · decide
  · decide
  · exact inLine_of_mem_utf8 hvalue hb

/-- A header does not begin with a space. -/
theorem head?_headerOctets {a : Attribute} (h : a.Writable) :
    (headerOctets a).head? ≠ some 32 := by
  rw [headerOctets_eq, Text.utf8_eq]
  cases hkey : a.1.toList with
  | nil => simp
  | cons c rest =>
    have hspace : c ≠ ' ' := by
      rintro rfl
      exact h.noSpace (by rw [hkey]; rfl)
    have hne : String.utf8EncodeChar c ≠ [] := by
      rw [ne_eq, ← List.length_eq_zero_iff, String.length_utf8EncodeChar]
      exact Nat.ne_of_gt c.utf8Size_pos
    obtain ⟨b, tail, hencode⟩ := List.exists_cons_of_ne_nil hne
    rw [List.flatMap_cons, hencode]
    simp only [List.cons_append, List.head?_cons, ne_eq, Option.some.injEq]
    rintro rfl
    have hc : c.toNat = 32 :=
      Text.toNat_of_mem_encodeChar (hencode ▸ List.mem_cons_self) (by decide)
    exact hspace (by rw [← Char.ofNat_toNat c, hc])

theorem attribute?_of_octets {a : Attribute} (h : a.Writable) {header : Header}
    (hoctets : header.octets = headerOctets a) : header.attribute? = .ok a :=
  Header.attribute?_eq_ok_iff.2 ⟨hoctets, h.noColon⟩

/-! ### The lines of headers -/

theorem inLine_of_mem_continuationLines {octets : Bytes} (h : ∀ b ∈ octets, inLine b = true) :
    ∀ line ∈ continuationLines octets, ∀ b ∈ line, inLine b = true := by
  fun_induction continuationLines octets with
  | case1 => simp
  | case2 b rest ih =>
    rw [List.forall_mem_cons]
    refine ⟨?_, ih fun c hc => h c (List.mem_of_mem_drop hc)⟩
    rw [List.forall_mem_cons]
    exact ⟨by decide, fun c hc => h c (List.mem_of_mem_take hc)⟩

/-- A continuation is a space and at least one octet. -/
theorem exists_cons_of_mem_continuationLines (octets : Bytes) :
    ∀ line ∈ continuationLines octets, ∃ b more, line = 32 :: b :: more := by
  fun_induction continuationLines octets with
  | case1 => simp
  | case2 b rest ih => exact List.forall_mem_cons.2 ⟨⟨b, rest.take (lineWidth - 2), rfl⟩, ih⟩

theorem inLine_of_mem_headerLines {a : Attribute} (hkey : Text.OneLine a.1)
    (hvalue : Text.OneLine a.2) :
    ∀ line ∈ headerLines (headerOctets a), ∀ b ∈ line, inLine b = true := by
  have hall := inLine_of_mem_headerOctets hkey hvalue
  rw [headerLines, List.forall_mem_cons]
  exact ⟨fun b hb => hall b (List.mem_of_mem_take hb),
    inLine_of_mem_continuationLines fun b hb => hall b (List.mem_of_mem_drop hb)⟩

theorem ne_nil_of_mem_headerLines (a : Attribute) :
    ∀ line ∈ headerLines (headerOctets a), line ≠ [] := by
  obtain ⟨b, rest, hoctets⟩ := List.exists_cons_of_ne_nil (headerOctets_ne_nil a)
  rw [headerLines, List.forall_mem_cons]
  constructor
  · rw [hoctets]
    exact List.cons_ne_nil _ _
  · intro line hline
    obtain ⟨b, more, rfl⟩ := exists_cons_of_mem_continuationLines _ line hline
    exact List.cons_ne_nil _ _

/-- What is joined of the lines of a header is the header. -/
theorem joined_continuationLines (octets : Bytes) (before : Nat) (rest : List NumberedLine) :
    joined (numbered before (continuationLines octets) ++ rest) =
      (octets ++ (joined rest).1, (joined rest).2) := by
  induction octets using continuationLines.induct generalizing before with
  | case1 => rw [continuationLines]; rfl
  | case2 b octets ih =>
    have hsplit := List.take_append_drop (lineWidth - 1) (b :: octets)
    rw [continuationLines, numbered, List.cons_append, joined, List.foldr_cons, ← joined, ih]
    simp only [NumberedLine.isContinuation, List.head?_cons, beq_self_eq_true, if_true,
      List.drop_succ_cons, List.drop_zero]
    rw [← List.append_assoc, hsplit]

theorem joined_headerLines {a : Attribute} (h : a.Writable) (before : Nat)
    {rest : List NumberedLine} {headers : List Header} (hrest : joined rest = ([], headers)) :
    ∃ header : Header, header.octets = headerOctets a ∧
      joined (numbered before (headerLines (headerOctets a)) ++ rest) =
        ([], header :: headers) := by
  refine ⟨⟨before + 1, headerOctets a⟩, rfl, ?_⟩
  have hfirst : ((headerOctets a).take lineWidth).head? ≠ some 32 := by
    rw [List.head?_take, if_neg (by decide)]
    exact head?_headerOctets h
  rw [headerLines, numbered, List.cons_append, joined, List.foldr_cons, ← joined,
    joined_continuationLines, hrest]
  simp only [NumberedLine.isContinuation, beq_eq_false_iff_ne.2 hfirst, Bool.false_eq_true,
    if_false, List.append_nil, List.take_append_drop]

/-! ### Sections -/

/-- The lines of some headers. -/
def headersLines (attributes : List Attribute) : List Bytes :=
  attributes.flatMap fun a => headerLines (headerOctets a)

/-- The lines of a section. -/
def sectionLines (attributes : List Attribute) : List Bytes :=
  headersLines attributes ++ [[]]

theorem encodeSection_eq (attributes : List Attribute) :
    encodeSection attributes = writtenLines (sectionLines attributes) := by
  have hheaders : attributes.flatMap encodeHeader = writtenLines (headersLines attributes) := by
    rw [writtenLines, headersLines, List.flatMap_assoc]
    rfl
  rw [encodeSection, hheaders, sectionLines, writtenLines_append]
  rfl

theorem flatMap_encodeSection (sections : List (List Attribute)) :
    sections.flatMap encodeSection = writtenLines (sections.flatMap sectionLines) := by
  rw [writtenLines, List.flatMap_assoc]
  exact List.flatMap_congr fun attributes _ => encodeSection_eq attributes

theorem inLine_of_mem_sectionLines {attributes : List Attribute}
    (h : ∀ a ∈ attributes, a.Writable) :
    ∀ line ∈ sectionLines attributes, ∀ b ∈ line, inLine b = true := by
  intro line hline
  rcases List.mem_append.1 hline with hline | hline
  · obtain ⟨a, ha, hline⟩ := List.mem_flatMap.1 hline
    exact inLine_of_mem_headerLines (h a ha).key (h a ha).value line hline
  · rw [List.mem_singleton.1 hline]
    exact fun b hb => absurd hb List.not_mem_nil

theorem inLine_of_mem_flatMap_sectionLines {sections : List (List Attribute)}
    (h : ∀ attributes ∈ sections, ∀ a ∈ attributes, a.Writable) :
    ∀ line ∈ sections.flatMap sectionLines, ∀ b ∈ line, inLine b = true := by
  intro line hline
  obtain ⟨attributes, hmem, hline⟩ := List.mem_flatMap.1 hline
  exact inLine_of_mem_sectionLines (h attributes hmem) line hline

theorem ne_nil_of_mem_headersLines (attributes : List Attribute) :
    ∀ line ∈ headersLines attributes, line ≠ [] := by
  intro line hline
  obtain ⟨a, _, hline⟩ := List.mem_flatMap.1 hline
  exact ne_nil_of_mem_headerLines a line hline

theorem joined_headersLines {attributes : List Attribute} (h : ∀ a ∈ attributes, a.Writable)
    (before : Nat) :
    ∃ headers, joined (numbered before (headersLines attributes)) = ([], headers) ∧
      headers.mapM Header.attribute? = .ok attributes := by
  induction attributes generalizing before with
  | nil => exact ⟨[], rfl, rfl⟩
  | cons a attributes ih =>
    obtain ⟨ha, hrest⟩ := List.forall_mem_cons.1 h
    obtain ⟨headers, hjoined, hread⟩ :=
      ih hrest (before + (headerLines (headerOctets a)).length)
    obtain ⟨header, hoctets, hjoined⟩ := joined_headerLines ha before hjoined
    refine ⟨header :: headers, ?_, ?_⟩
    · rw [headersLines, List.flatMap_cons, numbered_append]
      exact hjoined
    · rw [List.mapM_cons, attribute?_of_octets ha hoctets, hread]
      rfl

/-- The paragraph of a written section states the section. -/
theorem section?_headersLines {attributes : List Attribute} (hne : attributes ≠ [])
    (h : ∀ a ∈ attributes, a.Writable) (before start stop : Nat) :
    Paragraph.section? ⟨numbered before (headersLines attributes), start, stop⟩ =
      .ok ⟨attributes, start, stop⟩ := by
  obtain ⟨headers, hjoined, hread⟩ := joined_headersLines h before
  obtain ⟨a, rest, rfl⟩ := List.exists_cons_of_ne_nil hne
  have hfirst : ((headerOctets a).take lineWidth).head? ≠ some 32 := by
    rw [List.head?_take, if_neg (by decide)]
    exact head?_headerOctets (h a List.mem_cons_self)
  have hlines : numbered before (headersLines (a :: rest)) =
      ⟨before + 1, (headerOctets a).take lineWidth⟩ ::
        numbered (before + 1) (continuationLines ((headerOctets a).drop lineWidth) ++
          headersLines rest) := rfl
  rw [hlines] at hjoined ⊢
  simp only [Paragraph.section?, NumberedLine.isContinuation, beq_eq_false_iff_ne.2 hfirst,
    Bool.false_eq_true, if_false, hjoined, hread, Steps.ok_bind]

/-- Sections one behind the other, the first at an offset. -/
def placed (offset : Nat) : List (List Attribute) → List Section
  | [] => []
  | attributes :: rest =>
    ⟨attributes, offset, offset + (encodeSection attributes).length⟩ ::
      placed (offset + (encodeSection attributes).length) rest

theorem attributes_placed (offset : Nat) (sections : List (List Attribute)) :
    (placed offset sections).map Section.attributes = sections := by
  induction sections generalizing offset with
  | nil => rfl
  | cons attributes rest ih => rw [placed, List.map_cons, ih]

/-- The paragraphs of written sections state the sections, whatever comes before. -/
theorem mapM_section?_paragraphsFrom {sections : List (List Attribute)}
    (hne : ∀ attributes ∈ sections, attributes ≠ [])
    (h : ∀ attributes ∈ sections, ∀ a ∈ attributes, a.Writable) (offset count : Nat) :
    (paragraphsFrom offset count ((sections.flatMap sectionLines).map written)).mapM
        Paragraph.section? = .ok (placed offset sections) := by
  induction sections generalizing offset count with
  | nil => rfl
  | cons attributes rest ih =>
    obtain ⟨hfirst, hothers⟩ := List.forall_mem_cons.1 hne
    obtain ⟨hwritable, hwritables⟩ := List.forall_mem_cons.1 h
    have hlines : ((attributes :: rest).flatMap sectionLines).map written =
        (headersLines attributes).map written ++
          written [] :: (rest.flatMap sectionLines).map written := by
      simp [sectionLines]
    have hfull : ∀ line ∈ (headersLines attributes).map written, line.text ≠ [] :=
      List.forall_mem_map.2 (ne_nil_of_mem_headersLines attributes)
    have hheaders : (headersLines attributes).map written ≠ [] := by
      obtain ⟨a, more, rfl⟩ := List.exists_cons_of_ne_nil hfirst
      exact List.cons_ne_nil _ _
    have hoctets : linesOctets ((headersLines attributes).map written ++ [written []]) =
        encodeSection attributes := by
      rw [encodeSection_eq, writtenLines_eq, sectionLines, List.map_append]
      rfl
    have hsection := section?_headersLines hfirst hwritable count offset
      (offset + (encodeSection attributes).length)
    rw [hlines, paragraphsFrom_append_blank rfl, paragraphsFrom_run hfull (Or.inr ⟨_, rfl, rfl⟩),
      if_neg hheaders, hoctets, map_text_written, List.mapM_append, List.mapM_cons, hsection,
      ih hothers hwritables]
    rfl

/-- The paragraphs of written sections are the sections, each where it was written. -/
theorem mapM_section?_paragraphs {sections : List (List Attribute)}
    (hne : ∀ attributes ∈ sections, attributes ≠ [])
    (h : ∀ attributes ∈ sections, ∀ a ∈ attributes, a.Writable) :
    (paragraphs (sections.flatMap encodeSection)).mapM Paragraph.section? =
      .ok (placed 0 sections) := by
  rw [paragraphs_eq, flatMap_encodeSection,
    lines_writtenLines (inLine_of_mem_flatMap_sectionLines h)]
  exact mapM_section?_paragraphsFrom hne h 0 0

end ManifestDraft

end JarSigners
