import JarSigners.Asn1.Oid
import JarSigners.Base64
import JarSigners.Digest.Sha1
import JarSigners.Digest.Sha2
import JarSigners.Text.Caseless

/-!
# The digest algorithms of a JAR

Manifests, signature files and signature blocks name an algorithm in three ways: by a label at
the beginning of an attribute name, in any case and with or without its first hyphen, and by
an object identifier.
-/

set_option autoImplicit false

namespace JarSigners.Digest

inductive Algorithm where
  | sha1 | sha256 | sha384 | sha512
  deriving DecidableEq, Repr

namespace Algorithm

def all : List Algorithm := [sha1, sha256, sha384, sha512]

/-- The label written in attribute names and messages. -/
def label : Algorithm → String
  | sha1 => "SHA-1"
  | sha256 => "SHA-256"
  | sha384 => "SHA-384"
  | sha512 => "SHA-512"

/-- Every spelling of the label that is understood, up to ASCII case. -/
def spellings : Algorithm → List String
  | sha1 => ["SHA-1", "SHA1"]
  | sha256 => ["SHA-256", "SHA256"]
  | sha384 => ["SHA-384", "SHA384"]
  | sha512 => ["SHA-512", "SHA512"]

/-- Whether some characters are a spelling of the label. -/
def isLabelled (a : Algorithm) (text : List Char) : Bool :=
  a.spellings.any fun spelling => Text.alikeChars spelling.toList text

def ofLabelChars? (text : List Char) : Option Algorithm :=
  all.find? fun a => a.isLabelled text

/-- The algorithm a label names. -/
def ofLabel? (text : String) : Option Algorithm :=
  ofLabelChars? text.toList

/-- The algorithm of an attribute name that is a label and then this ending, in any case. -/
def ofAttribute? (key ending : String) : Option Algorithm :=
  let characters := key.toList
  let cut := characters.length - ending.toList.length
  if Text.alikeChars (characters.drop cut) ending.toList then
    ofLabelChars? (characters.take cut)
  else none

def oid : Algorithm → Asn1.Oid
  | sha1 => .ofArcs 1 3 [14, 3, 2, 26]
  | sha256 => .ofArcs 2 16 [840, 1, 101, 3, 4, 2, 1]
  | sha384 => .ofArcs 2 16 [840, 1, 101, 3, 4, 2, 2]
  | sha512 => .ofArcs 2 16 [840, 1, 101, 3, 4, 2, 3]

def ofOid? (oid : Asn1.Oid) : Option Algorithm :=
  all.find? fun a => a.oid = oid

/-- The digest of a whole message. -/
def digest : Algorithm → Bytes → Bytes
  | sha1, message => Digest.sha1.digest message
  | sha256, message => Digest.sha256.digest message
  | sha384, message => Digest.sha384.digest message
  | sha512, message => Digest.sha512.digest message

/-- The written digest of a message, as manifests state it. -/
def stated (a : Algorithm) (message : Bytes) : String :=
  Base64.text (a.digest message)

end Algorithm

/-- A message of which some octets have been hashed. -/
inductive Hasher where
  | sha1 (p : Blockwise.Progress Sha1.State)
  | sha256 (p : Blockwise.Progress (Sha2.State UInt32))
  | sha384 (p : Blockwise.Progress (Sha2.State UInt64))
  | sha512 (p : Blockwise.Progress (Sha2.State UInt64))

namespace Hasher

def begin : Algorithm → Hasher
  | .sha1 => sha1 Digest.sha1.begin
  | .sha256 => sha256 Digest.sha256.begin
  | .sha384 => sha384 Digest.sha384.begin
  | .sha512 => sha512 Digest.sha512.begin

/-- Take the next piece of the message. -/
def feed : Hasher → Bytes → Hasher
  | sha1 p, piece => sha1 (Digest.sha1.feed p piece)
  | sha256 p, piece => sha256 (Digest.sha256.feed p piece)
  | sha384 p, piece => sha384 (Digest.sha384.feed p piece)
  | sha512 p, piece => sha512 (Digest.sha512.feed p piece)

/-- The digest of all pieces taken. -/
def finish : Hasher → Bytes
  | sha1 p => Digest.sha1.finish p
  | sha256 p => Digest.sha256.finish p
  | sha384 p => Digest.sha384.finish p
  | sha512 p => Digest.sha512.finish p

/-- Hashing in pieces is hashing the whole. -/
theorem finish_feed_pieces (a : Algorithm) (pieces : List Bytes) :
    finish (pieces.foldl feed (begin a)) = a.digest pieces.flatten := by
  cases a with
  | sha1 =>
    rw [begin, List.foldl_hom sha1 (fun _ _ => rfl)]
    exact Blockwise.finish_feed_all Digest.sha1 (by decide) pieces
  | sha256 =>
    rw [begin, List.foldl_hom sha256 (fun _ _ => rfl)]
    exact Blockwise.finish_feed_all Digest.sha256 (by decide) pieces
  | sha384 =>
    rw [begin, List.foldl_hom sha384 (fun _ _ => rfl)]
    exact Blockwise.finish_feed_all Digest.sha384 (by decide) pieces
  | sha512 =>
    rw [begin, List.foldl_hom sha512 (fun _ _ => rfl)]
    exact Blockwise.finish_feed_all Digest.sha512 (by decide) pieces

end Hasher

end JarSigners.Digest
