import JarSigners.Archive.Entry
import JarSigners.Zip.CodePage
import JarSigners.Zip.Crc32
import JarSigners.Zip.Inflate

/-!
# The directory of an archive file

An archive file ends with a directory of its entries and a record that says where the
directory is. A record whose numbers are as large as they can be may stand behind a wider one,
to which a locator between the two leads. Records are tried from the end of the file backwards
until one leads to a directory that can be read. Names, sizes, check values and methods are those of the directory;
the header in front of a payload only tells where the payload begins. Of entries with one name
the last counts, in the place of the first.
-/

set_option autoImplicit false

namespace JarSigners.Zip

/-- Little-endian numbers of these widths from the front of some octets. -/
def takeNumbers : (widths : List Nat) → Bytes → Option (List Nat × Bytes)
  | [], bytes => some ([], bytes)
  | width :: widths, bytes =>
    let taken := bytes.take width
    if taken.length = width then do
      let (numbers, rest) ← takeNumbers widths (bytes.drop width)
      some (Bytes.toNatLE taken :: numbers, rest)
    else none

/-- As many octets as asked for. -/
def takeOctets (count : Nat) (bytes : Bytes) : Option (Bytes × Bytes) :=
  let taken := bytes.take count
  if taken.length = count then some (taken, bytes.drop count) else none

def endMark : Nat := 0x06054B50
def directoryMark : Nat := 0x02014B50
def localMark : Nat := 0x04034B50
def locatorMark : Nat := 0x07064B50
def wideEndMark : Nat := 0x06064B50

/-- Where a pattern begins in octets that themselves begin at a position. -/
def positionsFrom (pattern : Bytes) : (position : Nat) → (found : List Nat) → Bytes → List Nat
  | _, found, [] => found.reverse
  | position, found, b :: rest =>
    let found := if pattern.isPrefixOf (b :: rest) then position :: found else found
    positionsFrom pattern (position + 1) found rest

/-- Where a four-octet mark begins, first occurrence first. -/
def positionsOf (mark : Nat) (bytes : Bytes) : List Nat :=
  positionsFrom (Bytes.ofNatLE 4 mark) 0 [] bytes

/-- What the directory says about an entry, as far as it is used. -/
structure DirectoryEntry where
  flags : Nat
  method : Nat
  crc : Nat
  compressedSize : Nat
  size : Nat
  offset : Nat
  rawName : Bytes
  name : String
  comment : String
  /-- Whether an extra field describes an encryption of the payload. -/
  encrypted : Bool

/-- What becomes of an extra field. -/
inductive ExtraResult where
  /-- Go on behind the field. -/
  | next (entry : DirectoryEntry) (rest : Bytes)
  /-- The fields end here; what was read counts. -/
  | stop (entry : DirectoryEntry)
  /-- The archive cannot be opened. -/
  | refuse

/-- Pass over the rest of a field. -/
def skipOctets (e : DirectoryEntry) (count : Nat) (bytes : Bytes) : ExtraResult :=
  match takeOctets count bytes with
  | some (_, rest) => .next e rest
  | none => .stop e

/-- The octets in a field that is bound to a text by a check value: behind a version and the
check value, and what follows; none within if the field is bound to another text, and none at
all if it is cut short. -/
def boundOctets (bound : Bytes) (length : Nat) (bytes : Bytes) :
    Option (Option (Bytes × Bytes)) :=
  match takeNumbers [1, 4] bytes with
  | some ([_, check], rest) =>
    if length < 5 then some none
    else
      match takeOctets (length - 5) rest with
      | some found => some (if check = (crc32 bound).toNat then some found else none)
      | none => none
  | _ => none

/-- Stands in a header for a number that is too large for its place. -/
def tooWide : Nat := 0xFFFFFFFF

/-- A number of eight octets, if it is wanted. -/
def takeWide (wanted : Bool) (bytes : Bytes) : Option (Option Nat × Bytes) :=
  if wanted then
    match takeNumbers [8] bytes with
    | some ([n], rest) => some (some n, rest)
    | _ => none
  else some (none, bytes)

/-- How many octets a number takes that may be there. -/
def wideLength : Option Nat → Nat
  | some _ => 8
  | none => 0

/-- Replace numbers that are too large for their places by those of a field with eight octets
each; a field of 24 octets and more has all of them. -/
def wideNumbers (e : DirectoryEntry) (length : Nat) (bytes : Bytes) : ExtraResult :=
  let full := 24 ≤ length
  match takeWide (full || e.size = tooWide) bytes with
  | none => .stop e
  | some (size, bytes) =>
    let e := { e with size := size.getD e.size }
    match takeWide (full || e.compressedSize = tooWide) bytes with
    | none => .stop e
    | some (compressedSize, bytes) =>
      let e := { e with compressedSize := compressedSize.getD e.compressedSize }
      match takeWide (full || e.offset = tooWide) bytes with
      | none => .stop e
      | some (offset, bytes) =>
        let e := { e with offset := offset.getD e.offset }
        let taken := wideLength size + wideLength compressedSize + wideLength offset
        if length < taken then .refuse else skipOctets e (length - taken) bytes

/-- A description of encryption; the real method stands in it. -/
def encryption (e : DirectoryEntry) (length : Nat) (bytes : Bytes) : ExtraResult :=
  if length ≠ 7 then .refuse
  else
    match takeNumbers [2, 2, 1, 2] bytes with
    | some ([version, vendor, strength, method], rest) =>
      if vendor = 0x4541 && (version = 1 || version = 2) && 1 ≤ strength && strength ≤ 3 then
        .next { e with method, encrypted := true } rest
      else .refuse
    | _ => .stop e

def bitCount (n : Nat) : Nat :=
  ((List.range 8).filter n.testBit).length

/-- Further times: a set of flags, and as many times as the flags call for. -/
def moreTimes (e : DirectoryEntry) (length : Nat) (bytes : Bytes) : ExtraResult :=
  match bytes with
  | [] => .stop e
  | flags :: rest =>
    let set := flags.toNat
    if length ≠ 5 && length ≠ 1 + 4 * bitCount set then .refuse
    else
      let modified := if set.testBit 0 || length = 5 then 4 else 0
      let accessed := if set.testBit 1 && 5 < length then 4 else 0
      let created := if set.testBit 2 && 5 < length then 4 else 0
      skipOctets e (modified + accessed + created) rest

/-- Times in another form: behind a reserved number a tag, a size and three times. -/
def otherTimes (e : DirectoryEntry) (length : Nat) (bytes : Bytes) : ExtraResult :=
  if length ≠ 32 then .refuse
  else
    match takeNumbers [4, 2] bytes with
    | some ([_, tag], rest) =>
      if tag ≠ 1 then .refuse
      else
        match takeNumbers [2] rest with
        | some ([size], rest) => if size ≠ 24 then .refuse else skipOctets e 24 rest
        | _ => .stop e
    | _ => .stop e

/-- Take account of one extra field. -/
def extraField (e : DirectoryEntry) (kind length : Nat) (bytes : Bytes) : ExtraResult :=
  if kind = 0x0001 then wideNumbers e length bytes
  else if kind = 0x000A then otherTimes e length bytes
  else if kind = 0x9901 then encryption e length bytes
  else if kind = 0x5455 then moreTimes e length bytes
  else if kind = 0x6375 then
    match boundOctets (Text.utf8 e.comment) length bytes with
    | none => .stop e
    | some none => .refuse
    | some (some (content, rest)) =>
      match Text.ofUtf8? content with
      | some comment => .next { e with comment } rest
      | none => .refuse
  else if kind = 0x7075 then
    match boundOctets e.rawName length bytes with
    | none => .stop e
    | some none => .refuse
    | some (some (content, rest)) =>
      match Text.ofUtf8? content with
      | some name => .next { e with name, rawName := content } rest
      | none => .refuse
  else skipOctets e length bytes

/-- Take account of all extra fields, each of which takes octets from `fuel`; one that is cut
short ends them. -/
def extraFields : (fuel : Nat) → DirectoryEntry → Bytes → Option DirectoryEntry
  | 0, e, _ => some e
  | fuel + 1, e, bytes =>
    match takeNumbers [2, 2] bytes with
    | some ([kind, length], rest) =>
      match extraField e kind length rest with
      | .next e rest => extraFields fuel e rest
      | .stop e => some e
      | .refuse => none
    | _ => some e

/-- The text of a name or comment. -/
def decodeText (isUtf8 : Bool) (raw : Bytes) : String :=
  if isUtf8 then Text.ofUtf8Lenient raw else ofCodePage raw

/-- The method of entries whose real method stands in an extra field. -/
def encryptedMethod : Nat := 99

/-- One entry of the directory, and what follows it. -/
def takeRecord? (bytes : Bytes) : Option (DirectoryEntry × Bytes) := do
  match ← takeNumbers [4, 2, 2, 2, 2, 2, 2, 4, 4, 4, 2, 2, 2, 2, 2, 4, 4] bytes with
  | ([mark, _, _, flags, method, _, _, crc, compressedSize, size, nameLength, extraLength,
      commentLength, _, _, _, offset], rest) =>
    if mark = directoryMark then
      let (rawName, rest) ← takeOctets nameLength rest
      let (extra, rest) ← takeOctets extraLength rest
      let (comment, rest) ← takeOctets commentLength rest
      let isUtf8 := flags.testBit 11
      let e ← extraFields extra.length
        ⟨flags, method, crc, compressedSize, size, offset, rawName, decodeText isUtf8 rawName,
          decodeText isUtf8 comment, false⟩ extra
      if e.method = encryptedMethod && !e.encrypted then none else some (e, rest)
    else none
  | _ => none

/-- Where the payload behind a header at this position begins. -/
def payloadStart? (file : Bytes) (position : Nat) : Option Nat := do
  match ← takeNumbers [4, 2, 2, 2, 2, 2, 4, 4, 4, 2, 2] (file.drop position) with
  | ([mark, _, _, _, _, _, _, _, _, nameLength, extraLength], _) =>
    if mark = localMark then some (position + 30 + nameLength + extraLength) else none
  | _ => none

/-- Octets with a check value. -/
def checkedPayload (crc : Nat) (content : Bytes) : Payload :=
  .octets content ((crc32 content).toNat = crc)

/-- What reading an entry delivers. Octets that come out of malformed data are delivered in
whole pieces only, since the piece in which it is found is lost. -/
def payloadOf (e : DirectoryEntry) (data : Bytes) : Payload :=
  if e.flags.testBit 0 || e.encrypted then .locked
  else if e.method = 0 then checkedPayload e.crc data
  else if e.method = 8 then
    match inflate data with
    | (content, .complete) => checkedPayload e.crc content
    | (content, .truncated) => .octets content false
    | (content, .malformed) =>
      let whole := content.length / PayloadCheck.pieceSize * PayloadCheck.pieceSize
      .octets (content.take whole) false
  else .locked

/-- The entry that a directory entry describes. Its header and the beginning of its payload
come before the directory. -/
def entryAt? (file : Bytes) (shift directory : Nat) (e : DirectoryEntry) : Option Entry := do
  let position := e.offset + shift
  if position < directory then
    let start ← payloadStart? file position
    if start ≤ directory then
      some ⟨e.name, payloadOf e ((file.drop start).take e.compressedSize)⟩
    else none
  else none

/-- A number of entries from the directory. -/
def entriesFrom? (file : Bytes) (shift directory : Nat) :
    (count : Nat) → Bytes → Option (List Entry)
  | 0, _ => some []
  | count + 1, bytes => do
    let (e, rest) ← takeRecord? bytes
    let first ← entryAt? file shift directory e
    let others ← entriesFrom? file shift directory count rest
    some (first :: others)

/-- Keep the last of several entries with one name, in the place of the first. -/
def mergeNames (entries : List Entry) : List Entry :=
  (entries.foldl (fun (kept : Array Entry) e =>
    match kept.findIdx? fun k => k.name = e.name with
    | some i => kept.setIfInBounds i e
    | none => kept.push e) #[]).toList

/-- Where a directory begins, by how much positions in it are less than those in the file, and how
many of its entries count. -/
structure DirectoryPlace where
  start : Nat
  shift : Nat
  count : Nat

/-- The record at the end of an archive. Its count is of the entries on its own disk. -/
structure EndRecord where
  disk : Nat
  directoryDisk : Nat
  count : Nat
  total : Nat
  offset : Nat
  commentLength : Nat

def endRecord? (bytes : Bytes) : Option EndRecord := do
  match ← takeNumbers [4, 2, 2, 2, 2, 4, 4, 2] bytes with
  | ([_, disk, directoryDisk, count, total, _, offset, commentLength], rest) =>
    if commentLength ≤ rest.length then
      some ⟨disk, directoryDisk, count, total, offset, commentLength⟩
    else none
  | _ => none

/-- Stands in an end record for a number of entries that may be too large for its place. -/
def tooMany : Nat := 0xFFFF

/-- Whether a number of the record may be too large for its place. -/
def EndRecord.isCapped (r : EndRecord) : Bool :=
  r.total = tooMany || r.offset = tooWide

/-- Where the end record at this position says that the directory is. A directory that begins later
than stated shifts all positions, as when something was put in front of the archive. -/
def narrowPlace? (directories : List Nat) (position : Nat) (record : EndRecord) :
    Option DirectoryPlace := do
  if record.disk ≠ record.directoryDisk then none
  else if record.count = 0 then some ⟨position, 0, 0⟩
  else
    let directory ← directories.find? fun d => record.offset ≤ d && d + 4 ≤ position
    some ⟨directory, directory - record.offset, record.count⟩

/-- What leads from an end record to the wider one in front of it. -/
structure Locator where
  directoryDisk : Nat
  offset : Nat
  disks : Nat

def locatorLength : Nat := 20

/-- The locator right before a position. -/
def locatorBefore? (file : Bytes) (position : Nat) : Option Locator := do
  if position < locatorLength then none
  else
    match ← takeNumbers [4, 4, 8, 4] (file.drop (position - locatorLength)) with
    | ([mark, directoryDisk, offset, disks], _) =>
      if mark = locatorMark then some ⟨directoryDisk, offset, disks⟩ else none
    | _ => none

/-- An end record with wider numbers. Its length does not count the mark and the length itself. -/
structure WideEndRecord where
  length : Nat
  madeBy : Nat
  needed : Nat
  disk : Nat
  directoryDisk : Nat
  count : Nat
  total : Nat
  offset : Nat

def wideEndRecord? (bytes : Bytes) : Option WideEndRecord := do
  match ← takeNumbers [4, 8, 2, 2, 4, 4, 8, 8, 8, 8] bytes with
  | ([_, length, madeBy, needed, disk, directoryDisk, count, total, _, offset], _) =>
    some ⟨length, madeBy, needed, disk, directoryDisk, count, total, offset⟩
  | _ => none

/-- The least octets that the directory needs for an entry. -/
def recordLength : Nat := 46

/-- The wide record at this position, if it reaches up to the locator, agrees with it on the disk
and leaves room in front of it for the directory. -/
def wideEndAt? (file : Bytes) (locator : Locator) (last position : Nat) :
    Option (Nat × WideEndRecord) := do
  let record ← wideEndRecord? (file.drop position)
  if 44 ≤ record.length && record.length + 12 = last - position &&
      record.directoryDisk = locator.directoryDisk &&
      record.total * recordLength + record.offset ≤ position then
    some (position, record)
  else none

/-- Where the wide record says that the directory is to which a locator leads. A record that stands
later than the locator says shifts all positions. -/
def widePlace? (file : Bytes) (position : Nat) (locator : Locator) : Option DirectoryPlace := do
  let last := position - locatorLength
  if last ≤ locator.offset || 1 < locator.disks then none
  else
    let marks := (positionsOf wideEndMark file).filter fun p => locator.offset ≤ p && p + 4 ≤ last
    let (found, record) ← marks.findSome? (wideEndAt? file locator last)
    let shift := found - locator.offset
    if record.count ≤ record.total && record.needed ≤ record.madeBy &&
        record.disk = record.directoryDisk then
      some ⟨record.offset + shift, shift, record.total⟩
    else none

/-- Where the directory is to which the end record at this position leads, through a wide record if
there is a locator of one. -/
def directoryPlace? (file : Bytes) (directories : List Nat) (position : Nat) (record : EndRecord) :
    Option DirectoryPlace :=
  match if record.isCapped then locatorBefore? file position else none with
  | some locator => widePlace? file position locator
  | none => narrowPlace? directories position record

/-- The entries that the end record at this position leads to. -/
def entriesAt? (file : Bytes) (directories : List Nat) (position : Nat) :
    Option (List Entry) := do
  let record ← endRecord? (file.drop position)
  let place ← directoryPlace? file directories position record
  (entriesFrom? file place.shift place.start place.count (file.drop place.start)).map mergeNames

/-- The entries of an archive file, if it is one. -/
def entries? (file : Bytes) : Option (List Entry) :=
  let directories := positionsOf directoryMark file
  (positionsOf endMark file).reverse.findSome? (entriesAt? file directories)

end JarSigners.Zip
