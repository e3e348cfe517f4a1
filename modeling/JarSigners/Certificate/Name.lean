import JarSigners.Asn1.Primitive
import JarSigners.Text.Utf8

/-!
# Distinguished names

A name is written least specific part first and shown most specific part first. A part is a
set of attributes, so its attributes stand in the order of their encodings.
-/

set_option autoImplicit false

namespace JarSigners

open Asn1 (Element Oid)

/-- A kind of attribute and its value, whatever its type. -/
structure NameAttribute where
  kind : Oid
  value : Element
  deriving DecidableEq, Repr

namespace NameAttribute

def ofElement? (e : Element) : Option NameAttribute := do
  match ← e.items? Asn1.tagSequence with
  | [kind, value] => some ⟨← Oid.ofElement? kind, value⟩
  | _ => none

def element (a : NameAttribute) : Element :=
  .sequence [a.kind.element, a.value]

/-- The kinds with a short name. -/
def shortNames : List (Oid × String) :=
  [(.ofArcs 2 5 [4, 3], "CN"), (.ofArcs 2 5 [4, 5], "SERIALNUMBER"), (.ofArcs 2 5 [4, 6], "C"),
   (.ofArcs 2 5 [4, 7], "L"), (.ofArcs 2 5 [4, 8], "ST"), (.ofArcs 2 5 [4, 9], "STREET"),
   (.ofArcs 2 5 [4, 10], "O"), (.ofArcs 2 5 [4, 11], "OU"),
   (.ofArcs 0 9 [2342, 19200300, 100, 1, 25], "DC"),
   (.ofArcs 1 2 [840, 113549, 1, 9, 1], "EMAILADDRESS")]

/-- The short name of a kind, or its arcs. -/
def kindText (kind : Oid) : String :=
  match shortNames.find? fun known => known.1 = kind with
  | some (_, short) => short
  | none => kind.dotted

/-- The text of a value whose type is read as UTF-8 here. -/
def valueText? (value : Element) : Option String :=
  if value.tag = Asn1.tagUtf8 || value.tag = Asn1.tagPrintable || value.tag = Asn1.tagIa5 ||
      value.tag = Asn1.tagTeletex then
    Text.ofUtf8? value.content
  else none

/-- Kind and value; a value that is no text is shown by its encoding. -/
def display (a : NameAttribute) : String :=
  let value := match valueText? a.value with
    | some text => text
    | none => "#" ++ Bytes.hexCapital a.value.encode
  kindText a.kind ++ "=" ++ value

end NameAttribute

/-- The parts of a name, least specific first, each with its attributes in order. -/
structure DistinguishedName where
  parts : List (List NameAttribute)
  deriving DecidableEq, Repr

namespace DistinguishedName

/-- A part read from a set. -/
def part? (e : Element) : Option (List NameAttribute) := do
  let items ← e.items? Asn1.tagSet
  let attributes ← items.mapM NameAttribute.ofElement?
  Asn1.setOf? (fun a => a.element.rank) attributes

def partElement (part : List NameAttribute) : Element :=
  .around Asn1.tagSet (part.map NameAttribute.element)

def ofElement? (e : Element) : Option DistinguishedName := do
  let items ← e.items? Asn1.tagSequence
  let parts ← items.mapM part?
  some ⟨parts⟩

def element (name : DistinguishedName) : Element :=
  .sequence (name.parts.map partElement)

/-- The name that some octets encode. -/
def ofBytes? (bytes : Bytes) : Option DistinguishedName :=
  (Element.ofBytes? bytes).bind ofElement?

/-- The name as people read it, such as `O=Alice Corp, L=Madrid, C=ES`. -/
def display (name : DistinguishedName) : String :=
  ", ".intercalate (name.parts.reverse.map fun part =>
    " + ".intercalate (part.map NameAttribute.display))

end DistinguishedName

end JarSigners
