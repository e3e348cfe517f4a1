import JarSigners.SignedMessage.Basic
import JarSigners.SignedMessage.Revocation

/-!
# The signed message as a whole

A message is wrapped with the kind of its content; the kind of a signature block is signed
data.
-/

set_option autoImplicit false

namespace JarSigners

open Asn1 (Element Oid Integer)

/-- An element and the kind of thing it is. -/
structure Envelope where
  kind : Oid
  content : Element
  deriving DecidableEq, Repr

namespace Envelope

def ofElement? (e : Element) : Option Envelope := do
  match ← e.items? Asn1.tagSequence with
  | [kind, content] => some ⟨← Oid.ofElement? kind, ← content.inField? 0⟩
  | _ => none

def ofBytes? (bytes : Bytes) : Option Envelope :=
  (Element.ofBytes? bytes).bind ofElement?

def element (v : Envelope) : Element :=
  .sequence [v.kind.element, .around (Element.fieldTag 0) [v.content]]

def encode (v : Envelope) : Bytes :=
  v.element.encode

end Envelope

/-- The kind of content of a signature block. -/
def signedDataKind : Oid := .ofArcs 1 2 [840, 113549, 1, 7, 2]

/-- The kind of plain octets. -/
def dataKind : Oid := .ofArcs 1 2 [840, 113549, 1, 7, 1]

structure SignedData where
  version : Nat
  digestAlgorithms : List AlgorithmIdentifier
  contentKind : Oid
  content : Option Element
  enclosed : Option (List EnclosedCertificate)
  revocations : Option (List EnclosedRevocation)
  signers : List SignerInfo
  deriving DecidableEq, Repr

namespace SignedData

/-- The kind of the content, and the content if it is there. -/
def contentOf? (e : Element) : Option (Oid × Option Element) := do
  match ← e.items? Asn1.tagSequence with
  | kind :: rest =>
    let kind ← Oid.ofElement? kind
    let (field, rest) := Element.takeField 0 rest
    let content ← Element.optional? (Element.inField? 0) field
    if rest.isEmpty then some (kind, content) else none
  | [] => none

def digestAlgorithms? (e : Element) : Option (List AlgorithmIdentifier) := do
  let items ← (← e.items? Asn1.tagSet).mapM AlgorithmIdentifier.ofElement?
  Asn1.setOf? AlgorithmIdentifier.rank items

def enclosed? (e : Element) : Option (List EnclosedCertificate) := do
  let items ← (← e.items? (Element.fieldTag 0)).mapM EnclosedCertificate.ofElement?
  Asn1.setOf? EnclosedCertificate.rank items

def revocations? (e : Element) : Option (List EnclosedRevocation) := do
  let items ← (← e.items? (Element.fieldTag 1)).mapM EnclosedRevocation.ofElement?
  Asn1.setOf? EnclosedRevocation.rank items

def signers? (e : Element) : Option (List SignerInfo) := do
  let items ← (← e.items? Asn1.tagSet).mapM SignerInfo.ofElement?
  Asn1.setOf? SignerInfo.rank items

def ofElement? (e : Element) : Option SignedData := do
  match ← e.items? Asn1.tagSequence with
  | version :: algorithms :: content :: rest =>
    let version ← Asn1.versionUpTo? maxMessageVersion version
    let algorithms ← digestAlgorithms? algorithms
    let (kind, content) ← contentOf? content
    let (enclosedField, rest) := Element.takeField 0 rest
    let (revocationField, rest) := Element.takeField 1 rest
    let enclosed ← Element.optional? enclosed? enclosedField
    let revocations ← Element.optional? revocations? revocationField
    match rest with
    | [signers] => some ⟨version, algorithms, kind, content, enclosed, revocations, ← signers? signers⟩
    | _ => none
  | _ => none

def element (d : SignedData) : Element :=
  let content := d.content.toList.map fun e => .around (Element.fieldTag 0) [e]
  .sequence ([(Integer.ofNat d.version).element,
      .around Asn1.tagSet (d.digestAlgorithms.map AlgorithmIdentifier.element),
      .sequence (d.contentKind.element :: content)] ++
    d.enclosed.toList.map (fun cs =>
      .around (Element.fieldTag 0) (cs.map EnclosedCertificate.element)) ++
    d.revocations.toList.map (fun rs =>
      .around (Element.fieldTag 1) (rs.map EnclosedRevocation.element)) ++
    [.around Asn1.tagSet (d.signers.map SignerInfo.element)])

/-- The certificates that come with the message, in order. -/
def certificates (d : SignedData) : List Certificate :=
  (d.enclosed.getD []).filterMap EnclosedCertificate.certificate?

end SignedData

end JarSigners
