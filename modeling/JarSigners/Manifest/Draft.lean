import JarSigners.Manifest.Basic

/-!
# Writing manifests

A draft is a manifest to be written: main attributes and named sections. Each header is written
as lines of at most 72 octets, whatever characters that splits; continuations begin with a
space, and a section ends with an empty line. Reading a draft is lenient: what is no header is
passed over, and so are sections without a name in front.
-/

set_option autoImplicit false

namespace JarSigners

structure ManifestDraft where
  main : List Attribute
  /-- Sections with their names, which the attributes do not repeat. -/
  sections : List (String × List Attribute)
  deriving DecidableEq, Repr

namespace ManifestDraft

/-! ### Headers -/

/-- The longest line, in octets without its ending. -/
def lineWidth : Nat := 72

def lineEnd : Bytes := [13, 10]

/-- The lines that continue a header; each spends an octet on its leading space. -/
def continuationLines (octets : Bytes) : List Bytes :=
  match octets with
  | [] => []
  | b :: rest =>
    (32 :: (b :: rest).take (lineWidth - 1)) :: continuationLines ((b :: rest).drop (lineWidth - 1))
termination_by octets.length
decreasing_by
  simp only [lineWidth, List.length_drop, List.length_cons]
  omega

/-- The continuations without their leading spaces are what they continue. -/
theorem flatMap_drop_continuationLines (octets : Bytes) :
    (continuationLines octets).flatMap (List.drop 1) = octets := by
  fun_induction continuationLines octets with
  | case1 => rfl
  | case2 b rest ih =>
    rw [List.flatMap_cons, ih, List.drop_succ_cons, List.drop_zero, List.take_append_drop]

theorem length_le_of_mem_continuationLines (octets : Bytes) :
    ∀ line ∈ continuationLines octets, line.length ≤ lineWidth := by
  fun_induction continuationLines octets with
  | case1 => simp
  | case2 b rest ih =>
    intro line hline
    rcases List.mem_cons.1 hline with rfl | hlater
    · rw [List.length_cons, List.length_take]
      have : lineWidth = 72 := rfl
      omega
    · exact ih line hlater

/-- The lines that a header is written on. -/
def headerLines (octets : Bytes) : List Bytes :=
  octets.take lineWidth :: continuationLines (octets.drop lineWidth)

/-- A header before it is broken into lines. -/
def headerOctets (a : Attribute) : Bytes :=
  Text.utf8 (a.1 ++ ": " ++ a.2)

/-- An attribute as it is written. -/
def encodeHeader (a : Attribute) : Bytes :=
  (headerLines (headerOctets a)).flatMap (· ++ lineEnd)

/-! ### Sections -/

/-- Some headers and the empty line behind them. -/
def encodeSection (attributes : List Attribute) : Bytes :=
  attributes.flatMap encodeHeader ++ lineEnd

/-- The attributes of a named section, the name in front. -/
def withName (name : String) (attributes : List Attribute) : List Attribute :=
  ("Name", name) :: attributes

def mainOctets (d : ManifestDraft) : Bytes :=
  encodeSection d.main

/-- Each named section as it is written. -/
def sectionOctets (d : ManifestDraft) : List (String × Bytes) :=
  d.sections.map fun (name, attributes) => (name, encodeSection (withName name attributes))

def encode (d : ManifestDraft) : Bytes :=
  d.mainOctets ++ d.sectionOctets.flatMap Prod.snd

/-! ### Changes -/

def creator : String := "jarsig-testkit"

/-- The manifest of a new archive. -/
def initial : ManifestDraft :=
  ⟨[("Manifest-Version", "1.0"), ("Created-By", creator)], []⟩

/-- Give the first attribute with this key, in any case, a value, or add one. -/
def setAttribute (key value : String) : List Attribute → List Attribute
  | [] => [(key, value)]
  | (known, old) :: rest =>
    if Text.alike known key then (known, value) :: rest
    else (known, old) :: setAttribute key value rest

/-- Set an attribute in the first section of this name, or in a new one. -/
def setInSections (name key value : String) :
    List (String × List Attribute) → List (String × List Attribute)
  | [] => [(name, setAttribute key value [])]
  | (known, attributes) :: rest =>
    if known = name then (known, setAttribute key value attributes) :: rest
    else (known, attributes) :: setInSections name key value rest

def set (d : ManifestDraft) (name key value : String) : ManifestDraft :=
  { d with sections := setInSections name key value d.sections }

/-! ### Reading -/

/-- The lines between line feeds, without a carriage return at their ends. -/
def looseLines (octets : Bytes) : List Bytes :=
  let (first, rest) := octets.foldr (fun b (first, rest) =>
    if b = 10 then (([] : Bytes), first :: rest) else (b :: first, rest)) ([], [])
  (first :: rest).map fun line => if line.getLast? = some 13 then line.dropLast else line

/-- A draft as far as it has been read: the header and the section begun. -/
structure Progress where
  draft : ManifestDraft
  /-- Whether the main section has been read. -/
  hasMain : Bool
  attributes : List Attribute
  header : Bytes

namespace Progress

def begin : Progress := ⟨⟨[], []⟩, false, [], []⟩

/-- The attribute a header states, if it does. -/
def attribute? (header : Bytes) : Option Attribute :=
  (Manifest.cutAtColon [] (Text.ofUtf8Lenient header).toList).map fun (key, value) =>
    (String.ofList key, String.ofList value)

/-- Finish the header begun. -/
def closeHeader (p : Progress) : Progress :=
  { p with attributes := p.attributes ++ (attribute? p.header).toList, header := [] }

/-- Finish the section begun. -/
def closeSection (p : Progress) : Progress :=
  match p.attributes with
  | [] => p
  | (key, value) :: rest =>
    if !p.hasMain then
      { p with draft := { p.draft with main := p.attributes }, hasMain := true, attributes := [] }
    else if Text.alike key "Name" then
      { p with
        draft := { p.draft with sections := p.draft.sections ++ [(value, rest)] }, attributes := [] }
    else { p with attributes := [] }

/-- Take the next line. -/
def take (p : Progress) (line : Bytes) : Progress :=
  match line with
  | [] => p.closeHeader.closeSection
  | b :: rest =>
    if b = 32 then { p with header := p.header ++ rest }
    else { p.closeHeader with header := b :: rest }

end Progress

/-- The draft that some octets hold. -/
def read (octets : Bytes) : ManifestDraft :=
  ((looseLines octets).foldl Progress.take .begin).closeHeader.closeSection.draft

end ManifestDraft

end JarSigners
