import JarSigners.Archive.Draft
import JarSigners.Certificate.Basic
import JarSigners.Signing.Key

/-!
# Signers

A signer has a short name, a key and a certificate that the signer issued. Names are given as pairs
of a short name and a value, most specific first; a certificate has them the other way round.
-/

set_option autoImplicit false

namespace JarSigners

namespace DistinguishedName

/-- The kinds of attribute a name can be given with. -/
def givenKinds : List (String × Asn1.Oid) :=
  [("CN", .ofArcs 2 5 [4, 3]), ("C", .ofArcs 2 5 [4, 6]), ("L", .ofArcs 2 5 [4, 7]),
   ("ST", .ofArcs 2 5 [4, 8]), ("O", .ofArcs 2 5 [4, 10]), ("OU", .ofArcs 2 5 [4, 11])]

/-- The kind that a short name in any case stands for. -/
def givenKind? (key : String) : Option Asn1.Oid :=
  (givenKinds.find? fun known => known.1 = Text.capitals key).map Prod.snd

/-- A part of a name from a short name and a value. -/
def givenPart (pair : String × String) : Except DraftError (List NameAttribute) :=
  match givenKind? pair.1 with
  | some kind => .ok [⟨kind, ⟨Asn1.tagUtf8, Text.utf8 pair.2⟩⟩]
  | none => .error (.unknownAttribute pair.1)

/-- The name with these attributes. They are read from the least specific one on, which decides
what unknown short name is reported. -/
def ofPairs (pairs : List (String × String)) : Except DraftError DistinguishedName :=
  (pairs.reverse.mapM givenPart).map DistinguishedName.mk

end DistinguishedName

structure Signer where
  /-- What the signer is called; names the files of a signature. -/
  keyName : String
  key : SigningKey
  certificate : Certificate

namespace Signer

/-- The time that a certificate is good from. -/
def notBefore : Asn1.Element := ⟨Asn1.tagUtcTime, Bytes.ofAscii "240101000000Z"⟩

/-- The time that a certificate is good until. -/
def notAfter : Asn1.Element := ⟨Asn1.tagUtcTime, Bytes.ofAscii "340101000000Z"⟩

/-- What a signer's certificate states. -/
def certificateBody (serial : Asn1.Integer) (name : DistinguishedName) (key : SigningKey) :
    CertificateBody where
  version := 2
  serial := serial
  issuerAlgorithm := key.kind.signatureAlgorithm
  issuer := name
  notBefore := notBefore
  notAfter := notAfter
  subject := name
  publicKey := key.publicKey
  issuerId := none
  subjectId := none
  extensions := none

/-- A signer of this name with a certificate of this serial number. -/
def issue (keyName : String) (serial : Asn1.Integer) (name : DistinguishedName)
    (key : SigningKey) : Signer :=
  let body := certificateBody serial name key
  ⟨keyName, key, ⟨body, key.kind.signatureAlgorithm, ⟨0, key.sign body.element.encode⟩⟩⟩

end Signer

end JarSigners
