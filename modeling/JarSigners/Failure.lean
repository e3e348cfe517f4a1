import JarSigners.Digest.Algorithm

/-!
# Why an archive is not trusted

Each cause is a constructor; its wording is in one function. Warnings are the cases in which
something is left unsigned rather than refused.
-/

set_option autoImplicit false

namespace JarSigners

/-- What keeps a manifest or a signature file from being read. Lines count from one. -/
inductive ManifestDefect where
  | invalidHeader (line : Nat)
  | invalidUtf8 (line : Nat)
  | strayContinuation (line : Nat)
  | unnamedSection
  deriving DecidableEq, Repr

def ManifestDefect.message : ManifestDefect → String
  | invalidHeader line => s!"line {line}: invalid header"
  | invalidUtf8 line => s!"line {line}: invalid UTF-8"
  | strayContinuation line => s!"line {line}: continuation without header"
  | unnamedSection => "section without Name attribute"

/-- What keeps a signature block from being checked at all. -/
inductive BlockDefect where
  | notSignedMessage
  | malformedSignedData
  | otherContent (contentType : Asn1.Oid)
  | missingMessageDigest
  | noSigners
  deriving DecidableEq, Repr

def BlockDefect.message : BlockDefect → String
  | notSignedMessage => "not a CMS structure"
  | malformedSignedData => "malformed signed-data"
  | otherContent contentType => s!"content type {contentType.dotted} is not signed-data"
  | missingMessageDigest => "signed attributes lack a message digest"
  | noSigners => "no signer infos"

/-- The part an algorithm identifier plays. -/
inductive AlgorithmRole where
  | digest | curve | key
  deriving DecidableEq, Repr

def AlgorithmRole.message : AlgorithmRole → String
  | digest => "digest algorithm"
  | curve => "elliptic curve"
  | key => "key algorithm"

inductive TrustFailure where
  | entryDiffers (entry : String) (algorithm : Digest.Algorithm)
  | sectionDiffers (signatureFile entry : String) (algorithm : Digest.Algorithm)
  | mainDiffers (signatureFile : String)
  | missingSection (signatureFile entry : String)
  | malformed (file : String) (defect : ManifestDefect)
  | invalidBlock (block : String) (defect : BlockDefect)
  | signatureFails (block signatureFile : String)
  | unknownAlgorithm (block : String) (role : AlgorithmRole) (oid : Option Asn1.Oid)
  | missingCertificate (block : String)
  deriving DecidableEq, Repr

def TrustFailure.message : TrustFailure → String
  | entryDiffers entry algorithm => s!"{algorithm.label} digest error for {entry}"
  | sectionDiffers signatureFile entry algorithm =>
    s!"invalid {algorithm.label} signature file digest for {entry} in {signatureFile}"
  | mainDiffers signatureFile =>
    s!"invalid signature file digest for manifest main attributes in {signatureFile}"
  | missingSection signatureFile entry =>
    s!"no manifest section for signature file entry {entry} in {signatureFile}"
  | malformed file defect => s!"malformed {file}: {defect.message}"
  | invalidBlock block defect => s!"invalid signature block {block}: {defect.message}"
  | signatureFails block signatureFile =>
    s!"signature in {block} does not verify over {signatureFile}"
  | unknownAlgorithm block role oid =>
    let name := (oid.map Asn1.Oid.dotted).getD ""
    s!"unsupported {role.message} {name} in {block}"
  | missingCertificate block => s!"signer certificate not found in {block}"

/-- Something that is treated as unsigned. -/
inductive Warning where
  | noSupportedDigest (signatureFile entry : String)
  | noSignatureFile (block : String)
  | noManifestDigest (entry : String)
  deriving DecidableEq, Repr

def Warning.message : Warning → String
  | noSupportedDigest signatureFile entry =>
    s!"{signatureFile}: no supported digest for {entry}, treating it as unsigned"
  | noSignatureFile block => s!"{block}: no matching signature file, ignoring block"
  | noManifestDigest entry =>
    s!"{entry}: signed but no supported manifest digest, treating it as unsigned"

end JarSigners
