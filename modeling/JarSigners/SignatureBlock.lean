import JarSigners.Certificate.Chain
import JarSigners.Failure
import JarSigners.PublicKey.Ecdsa
import JarSigners.PublicKey.Rsa
import JarSigners.SignedMessage.SignedData

/-!
# Signature blocks

A signature block is a signed message without its content, which is a signature file. Every
signature in it has to verify; then the block stands for one certificate chain per signature,
chains that are the same counted once.
-/

set_option autoImplicit false

namespace JarSigners

open Asn1 (Oid)

/-- A block, a signature file and its octets: what a signature is checked against. -/
structure BlockContext where
  block : String
  signatureFile : String
  content : Bytes

namespace SignatureBlock

/-- The kind of attribute that holds the digest of the content. -/
def messageDigestKind : Oid := .ofArcs 1 2 [840, 113549, 1, 9, 4]

/-- The kind of attribute that holds the kind of the content. -/
def contentKindKind : Oid := .ofArcs 1 2 [840, 113549, 1, 9, 3]

/-- The digest stated by the first attribute of that kind, in its first value. -/
def statedDigest? (attributes : List MessageAttribute) : Option Bytes := do
  let found ← attributes.find? fun a => a.kind = messageDigestKind
  let value ← found.values.head?
  value.content? Asn1.tagOctetString

/-- The octets of signed attributes that the signature covers. -/
def attributeOctets (attributes : List MessageAttribute) : Bytes :=
  (MessageAttribute.setElement Asn1.tagSet attributes).encode

/-- The octets that a signature covers: the signed attributes if there are any, and then they
have to state the digest of the content; otherwise the content itself. -/
def coveredOctets (ctx : BlockContext) (a : Digest.Algorithm)
    (attributes : Option (List MessageAttribute)) : Except TrustFailure Bytes :=
  match attributes with
  | none => .ok ctx.content
  | some attributes =>
    match statedDigest? attributes with
    | none => .error (.invalidBlock ctx.block .missingMessageDigest)
    | some stated =>
      if stated = a.digest ctx.content then .ok (attributeOctets attributes)
      else .error (.signatureFails ctx.block ctx.signatureFile)

/-- The curve that the parameters of a key name. -/
def curveName? (info : PublicKeyInfo) : Option Oid :=
  info.algorithm.parameters.bind Oid.ofElement?

/-- Whether a signature over a digest verifies with a key, if keys of its kind are supported. -/
def keyVerifies (block : String) (info : PublicKeyInfo) (a : Digest.Algorithm)
    (hashed signature : Bytes) : Except TrustFailure Bool :=
  if info.algorithm.oid = PublicKey.RsaKey.algorithm then
    match PublicKey.RsaKey.ofInfo? info with
    | some key => .ok (key.verifies a hashed signature)
    | none => .ok false
  else if info.algorithm.oid = PublicKey.Ecdsa.algorithm then
    let curve := curveName? info
    if curve = some PublicKey.Ecdsa.p256Name then
      .ok (PublicKey.Ecdsa.verifiesInfo PublicKey.p256 info hashed signature)
    else if curve = some PublicKey.Ecdsa.p384Name then
      .ok (PublicKey.Ecdsa.verifiesInfo PublicKey.p384 info hashed signature)
    else .error (.unknownAlgorithm block .curve curve)
  else .error (.unknownAlgorithm block .key (some info.algorithm.oid))

/-- Check one signature with the certificate of its signer. -/
def checkSignature (ctx : BlockContext) (signer : SignerInfo) (certificate : Certificate) :
    Except TrustFailure Unit :=
  match Digest.Algorithm.ofOid? signer.digestAlgorithm.oid with
  | none => .error (.unknownAlgorithm ctx.block .digest (some signer.digestAlgorithm.oid))
  | some a => do
    let covered ← coveredOctets ctx a signer.signedAttributes
    let verified ← keyVerifies ctx.block certificate.body.publicKey a (a.digest covered)
      signer.signature
    if verified then .ok () else .error (.signatureFails ctx.block ctx.signatureFile)

/-- Check one signature and build the chain of its signer. -/
def signerChain (ctx : BlockContext) (pool : List Certificate) (signer : SignerInfo) :
    Except TrustFailure Chain :=
  match pool.find? signer.id.isOf with
  | none => .error (.missingCertificate ctx.block)
  | some certificate => do
    checkSignature ctx signer certificate
    .ok (.climb pool certificate)

/-- The first of several equal members, in order. -/
def firsts {α : Type} [BEq α] (items : List α) : List α :=
  items.foldl (fun kept x => if kept.contains x then kept else kept ++ [x]) []

/-- Check all signatures of a message and build the chains of its signers. -/
def messageChains (ctx : BlockContext) (message : SignedData) :
    Except TrustFailure (List Chain) := do
  let chains ← message.signers.mapM (signerChain ctx message.certificates)
  if chains.isEmpty then .error (.invalidBlock ctx.block .noSigners) else .ok (firsts chains)

/-- The message in a block. -/
def message (block : String) (octets : Bytes) : Except TrustFailure SignedData :=
  match Envelope.ofBytes? octets with
  | none => .error (.invalidBlock block .notSignedMessage)
  | some envelope =>
    if envelope.kind = signedDataKind then
      match SignedData.ofElement? envelope.content with
      | none => .error (.invalidBlock block .malformedSignedData)
      | some message => .ok message
    else .error (.invalidBlock block (.otherContent envelope.kind))

/-- The chains of those who signed the content of a signature file with this block. -/
def chains (ctx : BlockContext) (octets : Bytes) : Except TrustFailure (List Chain) := do
  messageChains ctx (← message ctx.block octets)

end SignatureBlock

end JarSigners
