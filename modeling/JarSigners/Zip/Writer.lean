import JarSigners.Archive.Draft
import JarSigners.Zip.Crc32

/-!
# Writing archive files

Payloads are written as they are, each behind a header of its own; then the directory and the
record that says where it is. Numbers that are too large for this record stand in a wider one in
front of it. All dates are the first one that can be written. Headers are taken to begin within the
first four gibibytes of the file.
-/

set_option autoImplicit false

namespace JarSigners.Zip

/-- Numbers with their widths, least significant octet first. -/
def encodeNumbers (numbers : List (Nat × Nat)) : Bytes :=
  numbers.flatMap fun (width, n) => Bytes.ofNatLE width n

/-- The lowest version that can read an entry. -/
def versionNeeded (e : DraftEntry) : Nat :=
  if e.content.isSome then 10 else 20

/-- Marks names that are not ASCII as UTF-8. -/
def nameFlags (name : Bytes) : Nat :=
  if name.all (· < 0x80) then 0 else 0x0800

/-- 1 January 1980. -/
def firstDate : Nat := 0x0021

/-- Flags, method, time, date, check value and sizes, as both headers of an entry have them. -/
def commonNumbers (name content : Bytes) : List (Nat × Nat) :=
  [(2, nameFlags name), (2, 0), (2, 0), (2, firstDate), (4, (crc32 content).toNat),
   (4, content.length), (4, content.length), (2, name.length), (2, 0)]

/-- The header in front of a payload, and the payload. -/
def localRecord (e : DraftEntry) : Bytes :=
  let name := Text.utf8 e.writtenName
  encodeNumbers ([(4, 0x04034B50), (2, versionNeeded e)] ++ commonNumbers name e.writtenContent) ++
    name ++ e.writtenContent

/-- Ordinary permissions of a file or directory, as the directory states them. -/
def attributesOf (e : DraftEntry) : Nat :=
  (if e.content.isSome then 0o100644 else 0o040755) * 65536

/-- What the directory says about an entry whose header begins at an offset. -/
def directoryRecord (offset : Nat) (e : DraftEntry) : Bytes :=
  let name := Text.utf8 e.writtenName
  encodeNumbers ([(4, 0x02014B50), (2, 0x032D), (2, versionNeeded e)] ++
    commonNumbers name e.writtenContent ++
    [(2, 0), (2, 0), (2, 0), (4, attributesOf e), (4, offset)]) ++ name

/-- The directory of entries that are written from an offset on. -/
def directoryRecords (offset : Nat) : List DraftEntry → Bytes
  | [] => []
  | e :: rest => directoryRecord offset e ++ directoryRecords (offset + (localRecord e).length) rest

/-- The lowest version that can read all entries. -/
def versionForAll (entries : List DraftEntry) : Nat :=
  (entries.map versionNeeded).foldl max 10

/-- An end record has no room for one of these numbers. -/
def needsWideEnd (count size offset : Nat) : Bool :=
  0xFFFF < count || 0xFFFFFFFF < max size offset

/-- An end record with wider numbers. -/
def wideEndRecord (version count size offset : Nat) : Bytes :=
  encodeNumbers [(4, 0x06064B50), (8, 44), (2, version), (2, version), (4, 0), (4, 0), (8, count),
    (8, count), (8, size), (8, offset)]

/-- What leads to a wide end record at this position. -/
def locator (position : Nat) : Bytes :=
  encodeNumbers [(4, 0x07064B50), (4, 0), (8, position), (4, 1)]

/-- What stands between the directory and the record at the end. -/
def wideEnd (version count size offset : Nat) : Bytes :=
  if needsWideEnd count size offset then
    wideEndRecord version count size offset ++ locator (offset + size)
  else []

/-- The record at the end. Numbers that are too large for their places are as large as these
allow. -/
def endOfArchive (count size offset : Nat) : Bytes :=
  let count := min count 0xFFFF
  encodeNumbers [(4, 0x06054B50), (2, 0), (2, 0), (2, count), (2, count), (4, min size 0xFFFFFFFF),
    (4, min offset 0xFFFFFFFF), (2, 0)]

/-- An archive file with these entries. -/
def encode (entries : List DraftEntry) : Bytes :=
  let payloads := entries.flatMap localRecord
  let directory := directoryRecords 0 entries
  payloads ++ directory ++
    wideEnd (versionForAll entries) entries.length directory.length payloads.length ++
    endOfArchive entries.length directory.length payloads.length

end JarSigners.Zip
