import JarSigners.Config
import JarSigners.Failure

/-!
# The entries of an archive

An archive is its entries in the order of its directory. An entry's payload is what reading it
delivers: nothing if it cannot be opened, and otherwise octets, behind which the reader finds
either a proper end or damage. A limit is checked as octets arrive, so a payload that is too
large is reported as such even if damage would follow.
-/

set_option autoImplicit false

namespace JarSigners

/-- What reading an entry delivers. -/
inductive Payload where
  /-- The entry is encrypted or compressed in an unknown way. -/
  | locked
  /-- These octets, and then a proper end if `intact`. -/
  | octets (content : Bytes) (intact : Bool)
  deriving DecidableEq, Repr

structure Entry where
  name : String
  payload : Payload
  deriving DecidableEq, Repr

/-- Why an entry or a whole archive cannot be read. -/
inductive ReadError where
  | noFile
  | notArchive
  | corrupt (entry : String)
  | tooLarge (entry : String) (limit : UInt64)
  | untrusted (failure : TrustFailure)
  deriving DecidableEq, Repr

namespace ReadError

/-- The wording, where it is the program's own. -/
def message? : ReadError → Option String
  | noFile => none
  | notArchive => none
  | corrupt entry => some s!"corrupt data in entry {entry}"
  | tooLarge entry limit => some s!"entry {entry} exceeds size limit of {limit} bytes"
  | untrusted failure => some s!"security failure: {failure.message}"

/-- Whether the error speaks against the archive itself. -/
def isTrustFailure : ReadError → Bool
  | noFile => false
  | notArchive => true
  | corrupt _ => true
  | tooLarge _ _ => false
  | untrusted _ => true

end ReadError

namespace EntryName

/-- The directory of the manifest and the signatures. -/
def metadataDirectory : String := "META-INF/"

def manifest : String := "META-INF/MANIFEST.MF"

/-- Whether a name begins with the metadata directory, in any case. -/
def isMetadata (name : String) : Bool :=
  (Text.folded metadataDirectory.toList).isPrefixOf (Text.folded name.toList)

/-- Whether a name is that of a directory. -/
def isDirectory (name : String) : Bool :=
  match name.toList.getLast? with
  | some c => c = '/' || c = '\\'
  | none => false

/-- The endings of signature blocks. -/
def blockEndings : List String := ["RSA", "DSA", "EC"]

/-- Whether a name is that of a signature block: right in the metadata directory, something, a
point and one of the endings in any case. -/
def isBlock (name : String) : Bool :=
  isMetadata name &&
    let file := name.toList.drop metadataDirectory.toList.length
    !file.contains '/' &&
      match Text.cutAtLast '.' file with
      | some (stem, ending) =>
        !stem.isEmpty && blockEndings.any fun known => Text.alikeChars known.toList ending
      | none => false

/-- The name of the signature file that belongs to a block. -/
def signatureFileOf? (block : String) : Option String :=
  (Text.cutAtLast '.' block.toList).map fun (stem, _) => String.ofList (stem ++ ".SF".toList)

end EntryName

namespace Entry

def isDirectory (e : Entry) : Bool :=
  EntryName.isDirectory e.name

def isMetadata (e : Entry) : Bool :=
  EntryName.isMetadata e.name

/-- Whether the entry has a payload that signatures have to cover. -/
def isContent (e : Entry) : Bool :=
  !e.isDirectory && !e.isMetadata

/-- The octets of a metadata entry. Under a limit no more than one octet beyond it is read. -/
def metadataOctets (e : Entry) (limit : UInt64) : Except ReadError Bytes :=
  match e.payload with
  | .locked => .error .notArchive
  | .octets content intact =>
    if limit = 0 then if intact then .ok content else .error (.corrupt e.name)
    else
      let window := (limit + 1).toNat
      let read := content.take window
      if content.length < window && !intact then .error (.corrupt e.name)
      else if limit.toNat < read.length then .error (.tooLarge e.name limit)
      else .ok read

end Entry

/-- The first entry with this name, in any case. -/
def entryNamed? (entries : List Entry) (name : String) : Option Entry :=
  entries.find? fun e => Text.alike e.name name

/-- A digest that a payload has to have. -/
abbrev ExpectedDigest := Digest.Algorithm × String

/-- A payload under way: how many octets have arrived, and a hasher for each expected digest. -/
structure PayloadCheck where
  size : Nat
  hashers : List Digest.Hasher

namespace PayloadCheck

/-- How many octets are asked for at a time. -/
def pieceSize : Nat := 65536

def begin (expected : List ExpectedDigest) : PayloadCheck :=
  ⟨0, expected.map fun e => .begin e.1⟩

/-- Take the next piece, unless it makes the payload too large. -/
def take? (limit : UInt64) (c : PayloadCheck) (piece : Bytes) : Option PayloadCheck :=
  let size := c.size + piece.length
  if limit ≠ 0 ∧ limit.toNat < size then none
  else some ⟨size, c.hashers.map fun h => h.feed piece⟩

/-- The first expected digest that the payload does not have. -/
def firstMismatch? (expected : List ExpectedDigest) (c : PayloadCheck) :
    Option Digest.Algorithm :=
  ((expected.zip c.hashers).find? fun (e, h) => !Base64.spells e.2 h.finish).map fun (e, _) => e.1

end PayloadCheck

/-- Octets in pieces of a given size; `count` is at least the number of pieces. -/
def Bytes.piecesFrom (size : Nat) : (count : Nat) → Bytes → List Bytes
  | 0, _ => []
  | count + 1, bytes =>
    if bytes.isEmpty then [] else bytes.take size :: piecesFrom size count (bytes.drop size)

/-- Octets in pieces of a given size, the last one perhaps shorter. -/
def Bytes.pieces (size : Nat) (bytes : Bytes) : List Bytes :=
  Bytes.piecesFrom size (bytes.length / size + 1) bytes

/-- Pieces lose nothing. -/
theorem Bytes.flatten_piecesFrom (size count : Nat) (bytes : Bytes)
    (h : bytes.length ≤ count * size) : (piecesFrom size count bytes).flatten = bytes := by
  induction count generalizing bytes with
  | zero =>
    have hnil : bytes = [] := List.length_eq_zero_iff.1 (by omega)
    simp [piecesFrom, hnil]
  | succ count ih =>
    rw [piecesFrom]
    split
    next hempty => simp_all
    next =>
      have hrest : (bytes.drop size).length ≤ count * size := by
        rw [List.length_drop]
        rw [Nat.succ_mul] at h
        omega
      rw [List.flatten_cons, ih _ hrest, List.take_append_drop]

theorem Bytes.flatten_pieces {size : Nat} (hsize : 0 < size) (bytes : Bytes) :
    (pieces size bytes).flatten = bytes := by
  apply flatten_piecesFrom
  have := Nat.lt_mul_div_succ bytes.length hsize
  rw [Nat.mul_comm]
  omega

/-- Pass a payload through its expected digests piece by piece; its size if all is well. -/
def checkPieces (name : String) (limit : UInt64) (expected : List ExpectedDigest)
    (pieces : List Bytes) (intact : Bool) : Except ReadError Nat :=
  match pieces.foldlM (PayloadCheck.take? limit) (PayloadCheck.begin expected) with
  | none => .error (.tooLarge name limit)
  | some check =>
    if intact then
      match check.firstMismatch? expected with
      | some a => .error (.untrusted (.entryDiffers name a))
      | none => .ok check.size
    else .error (.corrupt name)

/-- Read a content entry through its expected digests; its size if all is well. -/
def Entry.check (e : Entry) (limit : UInt64) (expected : List ExpectedDigest) :
    Except ReadError Nat :=
  match e.payload with
  | .locked => .error .notArchive
  | .octets content intact =>
    checkPieces e.name limit expected (content.pieces PayloadCheck.pieceSize) intact

end JarSigners
