import JarSigners.SignatureBlock
import JarSigners.Signing.Signer

/-!
# Making signature blocks

A block holds the signer's certificate and one signature. The signature covers the content
itself, or signed attributes that state the kind of the content and its digest.
-/

set_option autoImplicit false

namespace JarSigners

open Asn1 (Element)

namespace Signer

/-- The algorithm by which contents are digested. -/
def digestAlgorithm : AlgorithmIdentifier :=
  ⟨SigningKey.digestAlgorithm.oid, none⟩

/-- The attributes that are signed in place of a content, in order. -/
def attributesFor (content : Bytes) : List MessageAttribute :=
  [⟨SignatureBlock.contentKindKind, [dataKind.element]⟩,
   ⟨SignatureBlock.messageDigestKind,
     [⟨Asn1.tagOctetString, SigningKey.digestAlgorithm.digest content⟩]⟩]

/-- A signature by this signer. -/
def info (s : Signer) (attributes : Option (List MessageAttribute)) (signature : Bytes) :
    SignerInfo where
  version := 1
  id := .issuerAndSerial s.certificate.body.issuer s.certificate.body.serial
  digestAlgorithm := digestAlgorithm
  signedAttributes := attributes
  signatureAlgorithm := s.key.kind.signatureAlgorithm
  signature := signature
  unsignedAttributes := none

/-- A message with one signature and the certificate for it. -/
def message (s : Signer) (attributes : Option (List MessageAttribute)) (signature : Bytes) :
    SignedData where
  version := 1
  digestAlgorithms := [digestAlgorithm]
  contentKind := dataKind
  content := none
  enclosed := some [.certificate s.certificate]
  revocations := none
  signers := [s.info attributes signature]

/-- The message that signs a content, with or without signed attributes. -/
def messageFor (s : Signer) (withAttributes : Bool) (content : Bytes) : SignedData :=
  if withAttributes then
    let attributes := attributesFor content
    s.message (some attributes) (s.key.sign (SignatureBlock.attributeOctets attributes))
  else s.message none (s.key.sign content)

/-- The signature block for a content. -/
def block (s : Signer) (withAttributes : Bool) (content : Bytes) : Bytes :=
  (Envelope.mk signedDataKind (s.messageFor withAttributes content).element).encode

end Signer

end JarSigners
