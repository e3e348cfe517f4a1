import JarSigners.Manifest.Basic

/-!
# What a signature file signs

A signature file states digests of a manifest: of the whole of it, of its main section, and of
named sections. If a digest of the whole agrees, every section named is signed. Otherwise the
main section must not differ, and each section named is signed if its own digest agrees.
-/

set_option autoImplicit false

namespace JarSigners

/-- A signature file is written like a manifest. -/
structure SignatureFile where
  name : String
  content : Manifest
  deriving DecidableEq, Repr

namespace SignatureFile

def read (name : String) (bytes : Bytes) : Except TrustFailure SignatureFile :=
  (Manifest.read name bytes).map (SignatureFile.mk name)

/-- The octets that the signature block signs. -/
def bytes (f : SignatureFile) : Bytes :=
  f.content.bytes

/-- What the digests of the whole manifest say. -/
def wholeAgreement (f : SignatureFile) (m : Manifest) : Agreement :=
  .of (f.content.main.digests "-Digest-Manifest") m.bytes

/-- What the digests of the manifest's main section say. -/
def mainAgreement (f : SignatureFile) (m : Manifest) : Agreement :=
  .of (f.content.main.digests "-Digest-Manifest-Main-Attributes") m.mainOctets

/-- What becomes of an entry that the signature file names. -/
inductive Verdict where
  | signed
  | unchecked
  | refused (failure : TrustFailure)
  deriving DecidableEq, Repr

/-- The verdict on the entry that a section names, by the digests in that section. -/
def verdict (f : SignatureFile) (m : Manifest) (s : Section) (entry : String) : Verdict :=
  match m.sectionOctets? entry with
  | none => .refused (.missingSection f.name entry)
  | some octets =>
    match Agreement.of (s.digests "-Digest") octets with
    | .agrees => .signed
    | .absent => .unchecked
    | .differs a => .refused (.sectionDiffers f.name entry a)

/-- The verdict on every entry named, in file order. -/
def verdicts (f : SignatureFile) (m : Manifest) : List (String × Verdict) :=
  f.content.sections.filterMap fun s => s.name?.map fun entry => (entry, f.verdict m s entry)

/-- The failure a verdict stands for. -/
def Verdict.failure? : Verdict → Option TrustFailure
  | refused failure => some failure
  | _ => none

/-- All entries named, in file order. -/
def namedEntries (f : SignatureFile) : List String :=
  f.content.sections.filterMap Section.name?

/-- The entries signed by their own digests, unless one is refused. -/
def checkedEntries (verdicts : List (String × Verdict)) : Except TrustFailure (List String) :=
  match verdicts.findSome? fun v => v.2.failure? with
  | some failure => .error failure
  | none => .ok ((verdicts.filter fun v => v.2 = .signed).map Prod.fst)

/-- The entries that the signature file signs in this manifest, in file order. -/
def coveredNames (f : SignatureFile) (m : Manifest) : Except TrustFailure (List String) :=
  if f.wholeAgreement m = .agrees then .ok f.namedEntries
  else
    match f.mainAgreement m with
    | .differs _ => .error (.mainDiffers f.name)
    | _ => checkedEntries (f.verdicts m)

/-- The entries left unsigned for want of a digest, up to the first that is refused. -/
def warnings (f : SignatureFile) (m : Manifest) : List Warning :=
  if f.wholeAgreement m = .agrees then []
  else
    match f.mainAgreement m with
    | .differs _ => []
    | _ =>
      (((f.verdicts m).takeWhile fun v => v.2.failure?.isNone).filter fun v =>
        v.2 = .unchecked).map fun v => .noSupportedDigest f.name v.1

end SignatureFile

end JarSigners
