import JarSigners.Bytes

/-!
# The physical layout of a manifest

A manifest is lines; a line ends with CR LF, LF, CR or the end of the file. Lines that follow
each other without an empty one between them are a paragraph, and a paragraph owns its octets
up to and including the empty line behind it. Inside a paragraph a line that begins with a
space continues the line before it.
-/

set_option autoImplicit false

namespace JarSigners.Manifest

/-- How a line ends. -/
inductive LineEnding where
  | none | cr | lf | crlf
  deriving DecidableEq, Repr

def LineEnding.octets : LineEnding → Bytes
  | none => []
  | cr => [13]
  | lf => [10]
  | crlf => [13, 10]

/-- A line without its ending, and its ending. -/
structure Line where
  text : Bytes
  ending : LineEnding
  deriving DecidableEq, Repr

def Line.octets (line : Line) : Bytes :=
  line.text ++ line.ending.octets

/-- An octet that is part of no line ending. -/
def inLine (b : UInt8) : Bool :=
  b != 13 && b != 10

/-- How the octets behind a line's text end it, and what follows. -/
def takeEnding : Bytes → LineEnding × Bytes
  | 13 :: 10 :: rest => (.crlf, rest)
  | 13 :: rest => (.cr, rest)
  | 10 :: rest => (.lf, rest)
  | rest => (.none, rest)

/-- The first line and what follows it. -/
def takeLine (bytes : Bytes) : Line × Bytes :=
  let (ending, rest) := takeEnding (bytes.dropWhile inLine)
  (⟨bytes.takeWhile inLine, ending⟩, rest)

theorem takeEnding_octets (bytes : Bytes) :
    (takeEnding bytes).1.octets ++ (takeEnding bytes).2 = bytes := by
  unfold takeEnding
  split <;> simp [LineEnding.octets]

/-- A line and what follows it are the octets it was read from. -/
theorem takeLine_octets (bytes : Bytes) :
    (takeLine bytes).1.octets ++ (takeLine bytes).2 = bytes := by
  simp only [takeLine, Line.octets, List.append_assoc, takeEnding_octets]
  exact List.takeWhile_append_dropWhile

theorem takeLine_octets_ne_nil {bytes : Bytes} (h : bytes ≠ []) :
    (takeLine bytes).1.octets ≠ [] := by
  cases bytes with
  | nil => exact absurd rfl h
  | cons b rest =>
    by_cases hb : inLine b = true
    · simp [takeLine, Line.octets, hb]
    · have hend : b = 13 ∨ b = 10 := by
        by_cases h13 : b = 13
        · exact Or.inl h13
        · refine Or.inr (Decidable.byContradiction fun h10 => hb ?_)
          simp [inLine, h13, h10]
      simp only [takeLine, Line.octets, List.dropWhile_cons, if_neg hb]
      rcases hend with rfl | rfl
      · cases rest with
        | nil => simp [takeEnding, LineEnding.octets]
        | cons c rest =>
          by_cases hc : c = 10
          · subst hc; simp [takeEnding, LineEnding.octets]
          · simp [takeEnding, LineEnding.octets, hc]
      · simp [takeEnding, LineEnding.octets]

/-- Reading a line leaves fewer octets. -/
theorem length_nextLine_lt {bytes : Bytes} (h : bytes ≠ []) :
    (takeLine bytes).2.length < bytes.length := by
  have hsplit := congrArg List.length (takeLine_octets bytes)
  have hpos := List.length_pos_iff.2 (takeLine_octets_ne_nil h)
  simp only [List.length_append] at hsplit
  omega

/-- The lines behind those already read, newest first. -/
def linesFrom (done : List Line) : Bytes → List Line
  | [] => done.reverse
  | b :: rest => linesFrom ((takeLine (b :: rest)).1 :: done) (takeLine (b :: rest)).2
termination_by bytes => bytes.length
decreasing_by exact length_nextLine_lt (List.cons_ne_nil _ _)

/-- All lines of a file. -/
def lines (bytes : Bytes) : List Line :=
  linesFrom [] bytes

/-- A line of a paragraph with its number in the file, from one. -/
structure NumberedLine where
  number : Nat
  text : Bytes
  deriving DecidableEq, Repr

/-- Lines without an empty one between them, and the octets they own. -/
structure Paragraph where
  lines : List NumberedLine
  start : Nat
  stop : Nat
  deriving DecidableEq, Repr

/-- Lines sorted into paragraphs as far as they have been read: how many octets and lines
that were, the lines of the paragraph begun and the finished paragraphs, newest first. -/
structure Sorted where
  offset : Nat
  count : Nat
  start : Nat
  begun : List NumberedLine
  done : List Paragraph

namespace Sorted

def empty : Sorted := ⟨0, 0, 0, [], []⟩

/-- Finish the paragraph begun, if there is one. -/
def close (s : Sorted) : List Paragraph :=
  if s.begun.isEmpty then s.done else ⟨s.begun.reverse, s.start, s.offset⟩ :: s.done

/-- Take the next line. -/
def take (s : Sorted) (line : Line) : Sorted :=
  let offset := s.offset + line.octets.length
  let count := s.count + 1
  if line.text.isEmpty then
    ⟨offset, count, offset, [], { s with offset }.close⟩
  else
    ⟨offset, count, s.start, ⟨count, line.text⟩ :: s.begun, s.done⟩

end Sorted

/-- All paragraphs of a file. -/
def paragraphs (bytes : Bytes) : List Paragraph :=
  ((lines bytes).foldl Sorted.take Sorted.empty).close.reverse

/-- A line that continues the one before it. -/
def NumberedLine.isContinuation (line : NumberedLine) : Bool :=
  line.text.head? == some 32

/-- A line together with its continuations, without their first space. -/
structure Header where
  number : Nat
  octets : Bytes
  deriving DecidableEq, Repr

/-- The headers of some lines, and what continues the line in front of them. -/
def joined (lines : List NumberedLine) : Bytes × List Header :=
  lines.foldr (fun line (continuation, headers) =>
    if line.isContinuation then (line.text.drop 1 ++ continuation, headers)
    else ([], ⟨line.number, line.text ++ continuation⟩ :: headers)) ([], [])

end JarSigners.Manifest
