import JarSigners.Failure
import JarSigners.Manifest.Paragraph
import JarSigners.Text.Utf8

/-!
# Manifests

A manifest is sections of attributes. The first section is the main one unless it has a name;
every other section has a name, and of two sections with one name the later one counts.
Signature files digest the octets of a section, so each section keeps the range it was read
from.
-/

set_option autoImplicit false

namespace JarSigners

/-- A key and its value. -/
abbrev Attribute := String × String

/-- The attributes of one section in order, and the octets `start` to `stop` it occupies. -/
structure Section where
  attributes : List Attribute
  start : Nat
  stop : Nat
  deriving DecidableEq, Repr

namespace Section

/-- The value of the first attribute with this key in any case. -/
def value? (s : Section) (key : String) : Option String :=
  (s.attributes.find? fun entry => Text.alike entry.1 key).map Prod.snd

def name? (s : Section) : Option String :=
  s.value? "Name"

/-- The digests stated under keys with this ending, in order. -/
def digests (s : Section) (ending : String) : List (Digest.Algorithm × String) :=
  s.attributes.filterMap fun (key, value) =>
    (Digest.Algorithm.ofAttribute? key ending).map fun a => (a, value)

end Section

/-- What the digests stated for some octets say about them. -/
inductive Agreement where
  | absent
  | agrees
  | differs (algorithm : Digest.Algorithm)
  deriving DecidableEq, Repr

/-- All stated digests have to agree; the first that does not is named. -/
def Agreement.of (stated : List (Digest.Algorithm × String)) (octets : Bytes) : Agreement :=
  match stated.find? fun (a, text) => !Base64.spells text (a.digest octets) with
  | some (a, _) => differs a
  | none => if stated.isEmpty then absent else agrees

/-- A manifest or signature file with the octets it was read from. -/
structure Manifest where
  bytes : Bytes
  main : Section
  sections : List Section
  deriving DecidableEq, Repr

namespace Manifest

/-- The parts before and after the first colon and space; `done` is what came before, newest
first. -/
def cutAtColon (done : List Char) : List Char → Option (List Char × List Char)
  | [] => none
  | ':' :: ' ' :: value => some (done.reverse, value)
  | c :: rest => cutAtColon (c :: done) rest

/-- The attribute a header states. -/
def Header.attribute? (header : Header) : Except ManifestDefect Attribute :=
  match Text.ofUtf8? header.octets with
  | none => .error (.invalidUtf8 header.number)
  | some text =>
    match cutAtColon [] text.toList with
    | none => .error (.invalidHeader header.number)
    | some (key, value) => .ok (String.ofList key, String.ofList value)

/-- The section a paragraph states. -/
def Paragraph.section? (p : Paragraph) : Except ManifestDefect Section :=
  match p.lines with
  | [] => .ok ⟨[], p.start, p.stop⟩
  | first :: _ =>
    if first.isContinuation then .error (.strayContinuation first.number)
    else do
      let attributes ← (joined p.lines).2.mapM Header.attribute?
      .ok ⟨attributes, p.start, p.stop⟩

/-- The main section of a file that has none. -/
def noMain : Section := ⟨[], 0, 0⟩

/-- The main section and the others. -/
def parted : List Section → Section × List Section
  | [] => (noMain, [])
  | first :: rest =>
    if first.name?.isNone then (first, rest) else (noMain, first :: rest)

/-- Read a manifest. The first defect in the file is reported; that a section lacks a name
only when there is no other. -/
def ofBytes (bytes : Bytes) : Except ManifestDefect Manifest := do
  let all ← (paragraphs bytes).mapM Paragraph.section?
  let (main, sections) := parted all
  if sections.all fun s => s.name?.isSome then .ok ⟨bytes, main, sections⟩
  else .error .unnamedSection

/-- Read the manifest of this file. -/
def read (file : String) (bytes : Bytes) : Except TrustFailure Manifest :=
  (ofBytes bytes).mapError (TrustFailure.malformed file)

/-- The octets of a section of this manifest. -/
def octets (m : Manifest) (s : Section) : Bytes :=
  (m.bytes.drop s.start).take (s.stop - s.start)

def mainOctets (m : Manifest) : Bytes :=
  m.octets m.main

/-- The section with this name; the last one where there are several. -/
def section? (m : Manifest) (name : String) : Option Section :=
  m.sections.reverse.find? fun s => s.name? = some name

/-- The octets of the section with this name. -/
def sectionOctets? (m : Manifest) (name : String) : Option Bytes :=
  (m.section? name).map m.octets

end Manifest

end JarSigners
