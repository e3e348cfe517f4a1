import JarSigners.Certificate.Basic

/-!
# Signed messages

A signed message names digest algorithms, holds certificates and says who signed. The content
itself may be absent; it is what the signature block of a JAR leaves out. Sets are kept in the
order of their encodings, and everything that depends on which member comes first follows that
order. Revocation lists and other certificate formats are read, so that what is malformed is
refused, and otherwise not used.
-/

set_option autoImplicit false

namespace JarSigners

open Asn1 (Element Oid Integer BitString)

/-- A kind of attribute and its values in order. -/
structure MessageAttribute where
  kind : Oid
  values : List Element
  deriving DecidableEq, Repr

namespace MessageAttribute

def ofElement? (e : Element) : Option MessageAttribute := do
  match ← e.items? Asn1.tagSequence with
  | [kind, values] =>
    let values ← Asn1.setOf? Element.rank (← values.items? Asn1.tagSet)
    some ⟨← Oid.ofElement? kind, values⟩
  | _ => none

def element (a : MessageAttribute) : Element :=
  .sequence [a.kind.element, .around Asn1.tagSet a.values]

/-- The attributes in a set with this tag. -/
def setOf? (tag : UInt8) (e : Element) : Option (List MessageAttribute) := do
  let attributes ← (← e.items? tag).mapM ofElement?
  Asn1.setOf? (fun a => a.element.rank) attributes

def setElement (tag : UInt8) (attributes : List MessageAttribute) : Element :=
  .around tag (attributes.map element)

end MessageAttribute

/-- How a signer's certificate is found. -/
inductive SignerId where
  | issuerAndSerial (issuer : DistinguishedName) (serial : Integer)
  | keyIdentifier (octets : Bytes)
  deriving DecidableEq, Repr

namespace SignerId

def ofElement? (e : Element) : Option SignerId :=
  if e.tag = Element.plainFieldTag 0 then some (.keyIdentifier e.content)
  else do
    match ← e.items? Asn1.tagSequence with
    | [issuer, serial] =>
      some (.issuerAndSerial (← DistinguishedName.ofElement? issuer)
        (← CertificateBody.serial? serial))
    | _ => none

def element : SignerId → Element
  | issuerAndSerial issuer serial => .sequence [issuer.element, serial.element]
  | keyIdentifier octets => ⟨Element.plainFieldTag 0, octets⟩

/-- Whether a certificate is the one meant. -/
def isOf (id : SignerId) (c : Certificate) : Bool :=
  match id with
  | issuerAndSerial issuer serial => c.body.issuer = issuer && c.body.serial = serial
  | keyIdentifier octets => c.keyIdentifier? = some octets

end SignerId

/-- The highest version number in a signed message. -/
def maxMessageVersion : Nat := 5

/-- One signature and what it covers. -/
structure SignerInfo where
  version : Nat
  id : SignerId
  digestAlgorithm : AlgorithmIdentifier
  signedAttributes : Option (List MessageAttribute)
  signatureAlgorithm : AlgorithmIdentifier
  signature : Bytes
  unsignedAttributes : Option (List MessageAttribute)
  deriving DecidableEq, Repr

namespace SignerInfo

def ofElement? (e : Element) : Option SignerInfo := do
  match ← e.items? Asn1.tagSequence with
  | version :: id :: digestAlgorithm :: rest =>
    let version ← Asn1.versionUpTo? maxMessageVersion version
    let id ← SignerId.ofElement? id
    let digestAlgorithm ← AlgorithmIdentifier.ofElement? digestAlgorithm
    let (signedField, rest) := Element.takeField 0 rest
    let signedAttributes ←
      Element.optional? (MessageAttribute.setOf? (Element.fieldTag 0)) signedField
    match rest with
    | signatureAlgorithm :: signature :: rest =>
      let signatureAlgorithm ← AlgorithmIdentifier.ofElement? signatureAlgorithm
      let signature ← signature.content? Asn1.tagOctetString
      let (unsignedField, rest) := Element.takeField 1 rest
      let unsignedAttributes ←
        Element.optional? (MessageAttribute.setOf? (Element.fieldTag 1)) unsignedField
      if rest.isEmpty then
        some ⟨version, id, digestAlgorithm, signedAttributes, signatureAlgorithm, signature,
          unsignedAttributes⟩
      else none
    | _ => none
  | _ => none

def element (s : SignerInfo) : Element :=
  .sequence ([(Integer.ofNat s.version).element, s.id.element, s.digestAlgorithm.element] ++
    s.signedAttributes.toList.map (MessageAttribute.setElement (Element.fieldTag 0)) ++
    [s.signatureAlgorithm.element, ⟨Asn1.tagOctetString, s.signature⟩] ++
    s.unsignedAttributes.toList.map (MessageAttribute.setElement (Element.fieldTag 1)))

/-- What decides the order of signers. -/
def rank (s : SignerInfo) : Asn1.Rank :=
  let attributesRank (attributes : List MessageAttribute) : Asn1.Rank :=
    (MessageAttribute.setElement Asn1.tagSet attributes).rank
  [some s.element.opening, some [s.version.toUInt8]] ++ s.id.element.variantRank ++
    s.digestAlgorithm.rank ++ Asn1.optionalRank attributesRank s.signedAttributes ++
    s.signatureAlgorithm.rank ++ [some (Element.encode ⟨Asn1.tagOctetString, s.signature⟩)] ++
    Asn1.optionalRank attributesRank s.unsignedAttributes

end SignerInfo

/-- A certificate that comes with a message, or one in another format. -/
inductive EnclosedCertificate where
  | certificate (c : Certificate)
  | other (format : Oid) (value : Element)
  deriving DecidableEq, Repr

namespace EnclosedCertificate

def ofElement? (e : Element) : Option EnclosedCertificate :=
  if e.tag = Element.fieldTag 3 then do
    match ← (← e.inField? 3).items? Asn1.tagSequence with
    | [format, value] => some (.other (← Oid.ofElement? format) value)
    | _ => none
  else (Certificate.ofElement? e).map certificate

def element : EnclosedCertificate → Element
  | certificate c => c.element
  | other format value =>
    .around (Element.fieldTag 3) [.sequence [format.element, value]]

/-- What decides the order of the certificates that come with a message. -/
def rank (c : EnclosedCertificate) : Asn1.Rank :=
  c.element.variantRank

def certificate? : EnclosedCertificate → Option Certificate
  | certificate c => some c
  | other .. => none

end EnclosedCertificate

end JarSigners
