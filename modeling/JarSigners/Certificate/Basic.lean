import JarSigners.Certificate.Name

/-!
# Certificates

What a certificate states, without any judgement on it: dates, extensions and the
certificate's own signature are read and kept, and never checked. A certificate is known by
its encoding, in which members of sets are in order and values that are the default are left
out.
-/

set_option autoImplicit false

namespace JarSigners

open Asn1 (Element Oid Integer BitString)

/-- An algorithm and what it needs to know. -/
structure AlgorithmIdentifier where
  oid : Oid
  parameters : Option Element
  deriving DecidableEq, Repr

namespace AlgorithmIdentifier

def ofElement? (e : Element) : Option AlgorithmIdentifier := do
  match ← e.items? Asn1.tagSequence with
  | [oid] => some ⟨← Oid.ofElement? oid, none⟩
  | [oid, parameters] => some ⟨← Oid.ofElement? oid, some parameters⟩
  | _ => none

def element (a : AlgorithmIdentifier) : Element :=
  .sequence (a.oid.element :: a.parameters.toList)

/-- What decides the order of algorithms in a set. -/
def rank (a : AlgorithmIdentifier) : Asn1.Rank :=
  some a.element.opening :: a.oid.element.rank ++ Asn1.optionalRank Element.rank a.parameters

end AlgorithmIdentifier

/-- A public key with the algorithm it is for. -/
structure PublicKeyInfo where
  algorithm : AlgorithmIdentifier
  key : BitString
  deriving DecidableEq, Repr

namespace PublicKeyInfo

def ofElement? (e : Element) : Option PublicKeyInfo := do
  match ← e.items? Asn1.tagSequence with
  | [algorithm, key] =>
    some ⟨← AlgorithmIdentifier.ofElement? algorithm,
      ← BitString.ofElement? Asn1.tagBitString key⟩
  | _ => none

def element (k : PublicKeyInfo) : Element :=
  .sequence [k.algorithm.element, k.key.element Asn1.tagBitString]

/-- The octets that are hashed to name the key. -/
def encode (k : PublicKeyInfo) : Bytes :=
  k.element.encode

end PublicKeyInfo

/-- Something further that a certificate states. -/
structure Extension where
  kind : Oid
  critical : Bool
  value : Bytes
  deriving DecidableEq, Repr

namespace Extension

/-- A truth value. -/
def truth? (e : Element) : Option Bool :=
  match e.content? Asn1.tagBoolean with
  | some [0xFF] => some true
  | some [0x00] => some false
  | _ => none

def ofElement? (e : Element) : Option Extension := do
  match ← e.items? Asn1.tagSequence with
  | [kind, value] =>
    some ⟨← Oid.ofElement? kind, false, ← value.content? Asn1.tagOctetString⟩
  | [kind, critical, value] =>
    some ⟨← Oid.ofElement? kind, ← truth? critical, ← value.content? Asn1.tagOctetString⟩
  | _ => none

def element (x : Extension) : Element :=
  let critical := if x.critical then [⟨Asn1.tagBoolean, [0xFF]⟩] else []
  .sequence (x.kind.element :: critical ++ [⟨Asn1.tagOctetString, x.value⟩])

/-- A list of extensions. -/
def listOf? (e : Element) : Option (List Extension) := do
  let items ← e.items? Asn1.tagSequence
  items.mapM ofElement?

def listElement (extensions : List Extension) : Element :=
  .sequence (extensions.map element)

end Extension

/-- What the issuer of a certificate signed. -/
structure CertificateBody where
  version : Nat
  serial : Integer
  issuerAlgorithm : AlgorithmIdentifier
  issuer : DistinguishedName
  notBefore : Element
  notAfter : Element
  subject : DistinguishedName
  publicKey : PublicKeyInfo
  issuerId : Option BitString
  subjectId : Option BitString
  extensions : Option (List Extension)
  deriving DecidableEq, Repr

namespace CertificateBody

/-- The longest serial number that is read, in octets. -/
def maxSerial : Nat := 21

def serial? (e : Element) : Option Integer := do
  let serial ← Integer.ofElement? e
  if serial.content.length ≤ maxSerial then some serial else none

def validity? (e : Element) : Option (Element × Element) := do
  match ← e.items? Asn1.tagSequence with
  | [notBefore, notAfter] =>
    if Asn1.Time.isValid notBefore && Asn1.Time.isValid notAfter then some (notBefore, notAfter)
    else none
  | _ => none

/-- A version in its field; the first version is the one that is left out. -/
def version? : Option Element → Option Nat
  | none => some 0
  | some e => (e.inField? 0).bind (Asn1.versionUpTo? 2)

/-- The optional fields at the end. -/
def trailer? (items : List Element) :
    Option (Option BitString × Option BitString × Option (List Extension)) := do
  let (issuerId, items) := Element.takeField 1 items
  let (subjectId, items) := Element.takeField 2 items
  let (extensions, items) := Element.takeField 3 items
  let issuerId ← Element.optional? (BitString.ofElement? (Element.plainFieldTag 1)) issuerId
  let subjectId ← Element.optional? (BitString.ofElement? (Element.plainFieldTag 2)) subjectId
  let extensions ←
    Element.optional? (fun e => (e.inField? 3).bind Extension.listOf?) extensions
  if items.isEmpty then some (issuerId, subjectId, extensions) else none

def ofElement? (e : Element) : Option CertificateBody := do
  let (versionField, items) := Element.takeField 0 (← e.items? Asn1.tagSequence)
  match items with
  | serial :: algorithm :: issuer :: validity :: subject :: publicKey :: rest =>
    let version ← version? versionField
    let serial ← serial? serial
    let algorithm ← AlgorithmIdentifier.ofElement? algorithm
    let issuer ← DistinguishedName.ofElement? issuer
    let (notBefore, notAfter) ← validity? validity
    let subject ← DistinguishedName.ofElement? subject
    let publicKey ← PublicKeyInfo.ofElement? publicKey
    let (issuerId, subjectId, extensions) ← trailer? rest
    some ⟨version, serial, algorithm, issuer, notBefore, notAfter, subject, publicKey, issuerId,
      subjectId, extensions⟩
  | _ => none

def element (b : CertificateBody) : Element :=
  let version := if b.version = 0 then []
    else [.around (Element.fieldTag 0) [(Integer.ofNat b.version).element]]
  let extensions := b.extensions.toList.map fun xs =>
    .around (Element.fieldTag 3) [Extension.listElement xs]
  .sequence (version ++
    [b.serial.element, b.issuerAlgorithm.element, b.issuer.element,
      .sequence [b.notBefore, b.notAfter], b.subject.element, b.publicKey.element] ++
    b.issuerId.toList.map (BitString.element (Element.plainFieldTag 1)) ++
    b.subjectId.toList.map (BitString.element (Element.plainFieldTag 2)) ++ extensions)

end CertificateBody

structure Certificate where
  body : CertificateBody
  algorithm : AlgorithmIdentifier
  signature : BitString
  deriving DecidableEq, Repr

namespace Certificate

def ofElement? (e : Element) : Option Certificate := do
  match ← e.items? Asn1.tagSequence with
  | [body, algorithm, signature] =>
    some ⟨← CertificateBody.ofElement? body, ← AlgorithmIdentifier.ofElement? algorithm,
      ← BitString.ofElement? Asn1.tagBitString signature⟩
  | _ => none

def element (c : Certificate) : Element :=
  .sequence [c.body.element, c.algorithm.element, c.signature.element Asn1.tagBitString]

/-- The octets a certificate is known by. -/
def encode (c : Certificate) : Bytes :=
  c.element.encode

def ofBytes? (bytes : Bytes) : Option Certificate :=
  (Element.ofBytes? bytes).bind ofElement?

/-- Whether a certificate names itself as its issuer. -/
def isSelfIssued (c : Certificate) : Bool :=
  c.body.issuer = c.body.subject

/-- Names the key of the certificate, by which a signer may be looked up. -/
def keyIdentifierKind : Oid := .ofArcs 2 5 [29, 14]

/-- The key identifier in the first extension of that kind. -/
def keyIdentifier? (c : Certificate) : Option Bytes := do
  let extensions ← c.body.extensions
  let found ← extensions.find? fun x => x.kind = keyIdentifierKind
  let e ← Element.ofBytes? found.value
  e.content? Asn1.tagOctetString

end Certificate

end JarSigners
