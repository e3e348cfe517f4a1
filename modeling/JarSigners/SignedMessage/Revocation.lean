import JarSigners.Certificate.Basic

/-!
# Revocation lists

A signed message may hold lists of revoked certificates. They are read so that what is
malformed is refused; nothing else is made of them.
-/

set_option autoImplicit false

namespace JarSigners

open Asn1 (Element Oid Integer BitString)

/-- One revoked certificate. -/
structure RevokedCertificate where
  serial : Integer
  date : Element
  extensions : Option (List Extension)
  deriving DecidableEq, Repr

namespace RevokedCertificate

def time? (e : Element) : Option Element :=
  if Asn1.Time.isValid e then some e else none

def ofElement? (e : Element) : Option RevokedCertificate := do
  match ← e.items? Asn1.tagSequence with
  | serial :: date :: rest =>
    let serial ← CertificateBody.serial? serial
    let date ← time? date
    match rest with
    | [] => some ⟨serial, date, none⟩
    | [extensions] => some ⟨serial, date, some (← Extension.listOf? extensions)⟩
    | _ => none
  | _ => none

def element (r : RevokedCertificate) : Element :=
  .sequence ([r.serial.element, r.date] ++ r.extensions.toList.map Extension.listElement)

/-- A list of revoked certificates. -/
def listOf? (e : Element) : Option (List RevokedCertificate) := do
  (← e.items? Asn1.tagSequence).mapM ofElement?

def listElement (revoked : List RevokedCertificate) : Element :=
  .sequence (revoked.map element)

end RevokedCertificate

/-- What the issuer of a revocation list signed. -/
structure RevocationBody where
  version : Nat
  issuerAlgorithm : AlgorithmIdentifier
  issuer : DistinguishedName
  thisUpdate : Element
  nextUpdate : Option Element
  revoked : Option (List RevokedCertificate)
  extensions : Option (List Extension)
  deriving DecidableEq, Repr

namespace RevocationBody

def isTime (e : Element) : Bool :=
  e.tag = Asn1.tagUtcTime || e.tag = Asn1.tagGeneralizedTime

/-- An element taken from the front of a list if it can be there, and what follows. -/
def takeIf (p : Element → Bool) : List Element → Option Element × List Element
  | [] => (none, [])
  | e :: rest => if p e then (some e, rest) else (none, e :: rest)

def ofElement? (e : Element) : Option RevocationBody := do
  match ← e.items? Asn1.tagSequence with
  | version :: algorithm :: issuer :: thisUpdate :: rest =>
    let version ← Asn1.versionUpTo? 2 version
    let algorithm ← AlgorithmIdentifier.ofElement? algorithm
    let issuer ← DistinguishedName.ofElement? issuer
    let thisUpdate ← RevokedCertificate.time? thisUpdate
    let (nextUpdate, rest) := takeIf isTime rest
    let (revoked, rest) := takeIf (fun e => e.tag = Asn1.tagSequence) rest
    let (extensions, rest) := Element.takeField 0 rest
    let nextUpdate ← Element.optional? RevokedCertificate.time? nextUpdate
    let revoked ← Element.optional? RevokedCertificate.listOf? revoked
    let extensions ←
      Element.optional? (fun e => (e.inField? 0).bind Extension.listOf?) extensions
    if rest.isEmpty then
      some ⟨version, algorithm, issuer, thisUpdate, nextUpdate, revoked, extensions⟩
    else none
  | _ => none

def element (b : RevocationBody) : Element :=
  .sequence ([(Integer.ofNat b.version).element, b.issuerAlgorithm.element, b.issuer.element,
      b.thisUpdate] ++ b.nextUpdate.toList ++
    b.revoked.toList.map RevokedCertificate.listElement ++
    b.extensions.toList.map fun xs =>
      .around (Element.fieldTag 0) [Extension.listElement xs])

end RevocationBody

/-- A revocation list, or something in another format that serves as one. -/
inductive EnclosedRevocation where
  | list (body : RevocationBody) (algorithm : AlgorithmIdentifier) (signature : BitString)
  | other (format : AlgorithmIdentifier) (value : Element)
  deriving DecidableEq, Repr

namespace EnclosedRevocation

def ofElement? (e : Element) : Option EnclosedRevocation :=
  if e.tag = Element.fieldTag 1 then do
    match ← (← e.inField? 1).items? Asn1.tagSequence with
    | [format, value] => some (.other (← AlgorithmIdentifier.ofElement? format) value)
    | _ => none
  else do
    match ← e.items? Asn1.tagSequence with
    | [body, algorithm, signature] =>
      some (.list (← RevocationBody.ofElement? body) (← AlgorithmIdentifier.ofElement? algorithm)
        (← BitString.ofElement? Asn1.tagBitString signature))
    | _ => none

def element : EnclosedRevocation → Element
  | list body algorithm signature =>
    .sequence [body.element, algorithm.element, signature.element Asn1.tagBitString]
  | other format value =>
    .around (Element.fieldTag 1) [.sequence [format.element, value]]

def rank (r : EnclosedRevocation) : Asn1.Rank :=
  r.element.variantRank

end EnclosedRevocation

end JarSigners
