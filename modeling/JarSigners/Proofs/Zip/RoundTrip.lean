import JarSigners.Proofs.Archive.Drafts
import JarSigners.Proofs.Text.Utf8
import JarSigners.Zip.Directory
import JarSigners.Zip.Writer
import Mathlib.Algebra.Ring.Nat
import Mathlib.Data.List.Induction
import Mathlib.Data.List.Nodup
import Mathlib.Data.List.Range

/-!
# Archive files that are read back

As long as everything fits the widths of its numbers, the reader finds in a written archive file
the entries that were written, under distinct names (`entries?_encode`). The end record is the last
mark of its kind that leaves room for one. It leads to the directory, which is the first mark of its
kind behind the payloads; where there are too many entries for it, a wide record leads there instead.
Every directory record leads back to the header in front of its payload.
-/

set_option autoImplicit false

namespace JarSigners

/-! ### Numbers -/

theorem Bytes.toNatLE_ofNatLE (width n : Nat) : toNatLE (ofNatLE width n) = n % 256 ^ width := by
  induction width generalizing n with
  | zero => rw [Nat.pow_zero, Nat.mod_one]; rfl
  | succ width ih =>
    have hoctet : ((n % 256).toUInt8).toNat = n % 256 := by
      rw [Nat.toUInt8, UInt8.toNat_ofNat']
      exact Nat.mod_mod n 256
    have hrest : toNatLE (ofNatLE (width + 1) n) =
        toNatLE (ofNatLE width (n / 256)) * 256 + ((n % 256).toUInt8).toNat := rfl
    rw [hrest, ih, hoctet, Nat.pow_succ, Nat.mul_comm (256 ^ width), Nat.mod_mul]
    omega

namespace Zip

theorem takeNumbers_cons (width : Nat) (widths : List Nat) (n : Nat) (bytes : Bytes) :
    takeNumbers (width :: widths) (Bytes.ofNatLE width n ++ bytes) =
      (takeNumbers widths bytes).map fun taken => (n % 256 ^ width :: taken.1, taken.2) := by
  have hlength := Bytes.length_ofNatLE width n
  have htake : (Bytes.ofNatLE width n ++ bytes).take width = Bytes.ofNatLE width n :=
    List.take_left' hlength
  have hdrop : (Bytes.ofNatLE width n ++ bytes).drop width = bytes :=
    List.drop_left' hlength
  simp only [takeNumbers, htake, hdrop, hlength, if_true, Bytes.toNatLE_ofNatLE]
  cases takeNumbers widths bytes <;> rfl

theorem encodeNumbers_cons (n : Nat × Nat) (numbers : List (Nat × Nat)) :
    encodeNumbers (n :: numbers) = Bytes.ofNatLE n.1 n.2 ++ encodeNumbers numbers := rfl

/-- Numbers are read back as far as they fit their widths. -/
theorem takeNumbers_encodeNumbers (numbers : List (Nat × Nat)) (rest : Bytes) :
    takeNumbers (numbers.map Prod.fst) (encodeNumbers numbers ++ rest) =
      some (numbers.map fun n => n.2 % 256 ^ n.1, rest) := by
  induction numbers with
  | nil => rfl
  | cons n numbers ih =>
    rw [List.map_cons, encodeNumbers_cons, List.append_assoc, takeNumbers_cons, ih]
    rfl

theorem length_encodeNumbers (numbers : List (Nat × Nat)) :
    (encodeNumbers numbers).length = (numbers.map Prod.fst).sum := by
  induction numbers with
  | nil => rfl
  | cons n numbers ih =>
    rw [encodeNumbers_cons, List.length_append, ih, Bytes.length_ofNatLE, List.map_cons, List.sum_cons]

/-- Too few octets hold no numbers. -/
theorem takeNumbers_eq_none {widths : List Nat} {bytes : Bytes}
    (h : bytes.length < widths.sum) : takeNumbers widths bytes = none := by
  induction widths generalizing bytes with
  | nil => exact absurd h (Nat.not_lt_zero _)
  | cons width widths ih =>
    rw [List.sum_cons] at h
    simp only [takeNumbers]
    split
    next hwidth =>
      have hrest : (bytes.drop width).length < widths.sum := by
        rw [List.length_take] at hwidth
        rw [List.length_drop]
        omega
      rw [ih hrest]
      rfl
    next => rfl

theorem takeOctets_append (taken rest : Bytes) :
    takeOctets taken.length (taken ++ rest) = some (taken, rest) := by
  simp only [takeOctets, List.take_left, List.drop_left, if_true]

/-! ### Names -/

/-- ASCII is read alike in both encodings. -/
theorem ofCodePage_eq_lenient {raw : Bytes} (hascii : ∀ b ∈ raw, b < 0x80) :
    ofCodePage raw = Text.ofUtf8Lenient raw := by
  have hread : ∀ (bytes : Bytes) (done : List Char), (∀ b ∈ bytes, b < 0x80) →
      Text.lenientFrom done bytes = done.reverse ++ bytes.map codePageChar := by
    intro bytes
    induction bytes with
    | nil => intro done _; simp [Text.lenientFrom]
    | cons b bytes ih =>
      intro done hascii
      obtain ⟨hb, hbytes⟩ := List.forall_mem_cons.1 hascii
      have hnat : b.toNat < 0x80 := hb
      have hnext : Text.nextLenient b bytes = (codePageChar b, bytes) := by
        simp [Text.nextLenient, Text.sequenceHead?, hnat, Text.continued, codePageChar, hb]
      rw [Text.lenientFrom, hnext, ih _ hbytes, List.reverse_cons, List.append_assoc]
      rfl
  rw [ofCodePage, Text.ofUtf8Lenient, hread raw [] hascii]
  rfl

/-- A name is read back with the flags it is written with. -/
theorem decodeText_utf8 (name : String) :
    decodeText ((nameFlags (Text.utf8 name)).testBit 11) (Text.utf8 name) = name := by
  rw [nameFlags]
  split
  next hascii =>
    have hall : ∀ b ∈ Text.utf8 name, b < 0x80 := by simpa using hascii
    rw [show Nat.testBit 0 11 = false by decide, decodeText, if_neg Bool.false_ne_true,
      ofCodePage_eq_lenient hall, Text.ofUtf8Lenient_utf8]
  next =>
    rw [show Nat.testBit 0x0800 11 = true by decide, decodeText, if_pos rfl,
      Text.ofUtf8Lenient_utf8]

/-! ### Marks -/

theorem positionsFrom_eq (pattern : Bytes) (position : Nat) (found : List Nat) (bytes : Bytes) :
    positionsFrom pattern position found bytes = found.reverse ++
      ((List.range bytes.length).filter fun i => pattern.isPrefixOf (bytes.drop i)).map
        (position + ·) := by
  induction bytes generalizing position found with
  | nil => simp [positionsFrom]
  | cons b rest ih =>
    have hshift : ((List.range rest.length).map Nat.succ).filter
        (fun i => pattern.isPrefixOf ((b :: rest).drop i)) =
          ((List.range rest.length).filter fun i =>
            pattern.isPrefixOf (rest.drop i)).map Nat.succ := by
      rw [List.filter_map]
      rfl
    have hplace : (fun i => position + 1 + i) = (position + ·) ∘ Nat.succ := by
      funext i
      exact Nat.add_right_comm position 1 i
    rw [positionsFrom, ih, List.length_cons, List.range_succ_eq_map, List.filter_cons, hshift,
      hplace, ← List.map_map]
    cases hfound : pattern.isPrefixOf (b :: rest) <;> simp [hfound]

/-- Whether a mark stands at a position. -/
def isAt (mark : Nat) (bytes : Bytes) (i : Nat) : Bool :=
  (Bytes.ofNatLE 4 mark).isPrefixOf (bytes.drop i)

theorem positionsOf_eq (mark : Nat) (bytes : Bytes) :
    positionsOf mark bytes = (List.range bytes.length).filter (isAt mark bytes) := by
  rw [positionsOf, positionsFrom_eq, List.reverse_nil, List.nil_append]
  simp only [Nat.zero_add, List.map_id']
  rfl

theorem isAt_append (mark : Nat) (before rest : Bytes) :
    isAt mark (before ++ (Bytes.ofNatLE 4 mark ++ rest)) before.length = true := by
  rw [isAt, List.drop_left, List.isPrefixOf_iff_prefix]
  exact List.prefix_append _ _

/-! ### Records -/

section Records

variable {e : DraftEntry} {offset : Nat}

/-- What the directory says about an entry. -/
def described (offset : Nat) (e : DraftEntry) : DirectoryEntry where
  flags := nameFlags (Text.utf8 e.writtenName)
  method := 0
  crc := (crc32 e.writtenContent).toNat
  compressedSize := e.writtenContent.length
  size := e.writtenContent.length
  offset := offset
  rawName := Text.utf8 e.writtenName
  name := e.writtenName
  comment := decodeText ((nameFlags (Text.utf8 e.writtenName)).testBit 11) []
  encrypted := false

theorem nameFlags_mod (name : Bytes) : nameFlags name % 256 ^ 2 = nameFlags name := by
  rw [nameFlags]
  split <;> rfl

theorem nameFlags_testBit_zero (name : Bytes) : (nameFlags name).testBit 0 = false := by
  rw [nameFlags]
  split <;> rfl

theorem crc_mod (content : Bytes) :
    (crc32 content).toNat % 256 ^ 4 = (crc32 content).toNat :=
  Nat.mod_eq_of_lt (crc32 content).toNat_lt

variable (hfits : e.Fits)

include hfits

theorem nameLength_mod :
    (Text.utf8 e.writtenName).length % 256 ^ 2 = (Text.utf8 e.writtenName).length :=
  Nat.mod_eq_of_lt (Nat.lt_succ_of_le hfits.name)

/-- A directory record is read back. -/
theorem takeRecord?_directoryRecord (hoffset : offset < 2 ^ 32) (rest : Bytes) :
    takeRecord? (directoryRecord offset e ++ rest) = some (described offset e, rest) := by
  have hlength := nameLength_mod hfits
  have hsize : e.writtenContent.length % 256 ^ 4 = e.writtenContent.length :=
    Nat.mod_eq_of_lt (Nat.lt_succ_of_le hfits.content)
  have hplace : offset % 256 ^ 4 = offset := Nat.mod_eq_of_lt hoffset
  have htaken := takeNumbers_encodeNumbers ([(4, 0x02014B50), (2, 0x032D), (2, versionNeeded e)] ++
    commonNumbers (Text.utf8 e.writtenName) e.writtenContent ++
    [(2, 0), (2, 0), (2, 0), (4, attributesOf e), (4, offset)]) (Text.utf8 e.writtenName ++ rest)
  have hmark : 0x02014B50 % 256 ^ 4 = directoryMark := by decide
  have hzero : 0 % 256 ^ 2 = 0 := rfl
  have hnone : ∀ octets : Bytes, takeOctets 0 octets = some ([], octets) := fun octets =>
    takeOctets_append [] octets
  have hmethod : ¬ (0 : Nat) = encryptedMethod := by decide
  simp only [commonNumbers, List.cons_append, List.nil_append, List.map_cons, List.map_nil,
    nameFlags_mod, crc_mod, hlength, hsize, hplace, hmark, hzero] at htaken
  simp only [takeRecord?, directoryRecord, commonNumbers, List.cons_append, List.nil_append,
    List.append_assoc, htaken, Option.bind_eq_bind, Option.bind_some, if_true, takeOctets_append,
    hnone, List.length_nil, extraFields, decodeText_utf8, hmethod, decide_false, Bool.false_and,
    Bool.false_eq_true, if_false]
  rfl

/-- The header in front of a payload says where this begins. -/
theorem payloadStart?_localRecord {file tail : Bytes}
    (hfile : file.drop offset = localRecord e ++ tail) :
    payloadStart? file offset = some (offset + 30 + (Text.utf8 e.writtenName).length) := by
  have hlength := nameLength_mod hfits
  have htaken := takeNumbers_encodeNumbers ([(4, 0x04034B50), (2, versionNeeded e)] ++
    commonNumbers (Text.utf8 e.writtenName) e.writtenContent)
    (Text.utf8 e.writtenName ++ (e.writtenContent ++ tail))
  have hmark : 0x04034B50 % 256 ^ 4 = localMark := by decide
  have hzero : 0 % 256 ^ 2 = 0 := rfl
  simp only [commonNumbers, List.cons_append, List.nil_append, List.map_cons, List.map_nil,
    hlength, hmark, hzero] at htaken
  simp only [payloadStart?, hfile, localRecord, commonNumbers, List.cons_append, List.nil_append,
    List.append_assoc, htaken, Option.bind_eq_bind, Option.bind_some, if_true, Nat.add_zero]

omit hfits in
theorem length_localRecord (e : DraftEntry) : (localRecord e).length =
    30 + (Text.utf8 e.writtenName).length + e.writtenContent.length := by
  rw [localRecord, List.length_append, List.length_append, length_encodeNumbers]
  rfl

omit hfits in
theorem drop_localRecord (e : DraftEntry) (tail : Bytes) :
    (localRecord e ++ tail).drop (30 + (Text.utf8 e.writtenName).length) =
      e.writtenContent ++ tail := by
  have hlength : (encodeNumbers ([(4, 0x04034B50), (2, versionNeeded e)] ++
      commonNumbers (Text.utf8 e.writtenName) e.writtenContent) ++
        Text.utf8 e.writtenName).length = 30 + (Text.utf8 e.writtenName).length := by
    rw [List.length_append, length_encodeNumbers]
    rfl
  rw [localRecord, List.append_assoc]
  exact List.drop_left' hlength

/-- What the directory describes is the entry that was written. -/
theorem entryAt?_described {file tail : Bytes} {directory : Nat}
    (hfile : file.drop offset = localRecord e ++ tail)
    (hdirectory : offset + (localRecord e).length ≤ directory) :
    entryAt? file 0 directory (described offset e) = some e.entry := by
  rw [length_localRecord] at hdirectory
  have hbefore : offset < directory := by omega
  have hstart : offset + 30 + (Text.utf8 e.writtenName).length ≤ directory := by omega
  have hpayload : (file.drop (offset + 30 + (Text.utf8 e.writtenName).length)).take
      e.writtenContent.length = e.writtenContent := by
    rw [Nat.add_assoc, ← List.drop_drop, hfile, drop_localRecord, List.take_left]
  have hopen : ((described offset e).flags.testBit 0 || (described offset e).encrypted) = false :=
    (Bool.or_false _).trans (nameFlags_testBit_zero _)
  have hmethod : (described offset e).method = 0 := rfl
  have hstate : payloadOf (described offset e) e.writtenContent =
      .octets e.writtenContent true := by
    rw [payloadOf, hopen, if_neg Bool.false_ne_true, if_pos hmethod, checkedPayload]
    exact congrArg _ (decide_eq_true rfl)
  have hname : (described offset e).name = e.writtenName := rfl
  have hsize : (described offset e).compressedSize = e.writtenContent.length := rfl
  have hoffset : (described offset e).offset + 0 = offset := rfl
  simp only [entryAt?, hoffset, if_pos hbefore, payloadStart?_localRecord hfits hfile,
    Option.bind_eq_bind, Option.bind_some, if_pos hstart, hsize, hpayload, hstate, hname]
  rfl

end Records

/-- The directory leads to all entries in order. -/
theorem entriesFrom?_directoryRecords {file : Bytes} {directory : Nat} (entries : List DraftEntry)
    (offset : Nat) (tail rest : Bytes)
    (hfits : ∀ e ∈ entries, e.Fits)
    (hfile : file.drop offset = entries.flatMap localRecord ++ tail)
    (hdirectory : offset + (entries.flatMap localRecord).length ≤ directory)
    (hsmall : directory < 2 ^ 32) :
    entriesFrom? file 0 directory entries.length (directoryRecords offset entries ++ rest) =
      some (entries.map DraftEntry.entry) := by
  induction entries generalizing offset with
  | nil => rfl
  | cons e entries ih =>
    obtain ⟨hfit, hfits⟩ := List.forall_mem_cons.1 hfits
    rw [List.flatMap_cons, List.append_assoc] at hfile
    rw [List.flatMap_cons, List.length_append] at hdirectory
    have hoffset : offset < 2 ^ 32 := by omega
    have hrecord := takeRecord?_directoryRecord hfit hoffset
      (directoryRecords (offset + (localRecord e).length) entries ++ rest)
    have hend : offset + (localRecord e).length ≤ directory := by omega
    have hentry := entryAt?_described hfit hfile hend
    have hnext : file.drop (offset + (localRecord e).length) =
        entries.flatMap localRecord ++ tail := by
      rw [← List.drop_drop, hfile, List.drop_left]
    rw [directoryRecords, List.append_assoc, List.length_cons, entriesFrom?, hrecord]
    simp only [Option.bind_eq_bind, Option.bind_some, hentry, ih _ hfits hnext (by omega)]
    rfl

/-! ### Entries of distinct names -/

theorem mergeNames_of_nodup {entries : List Entry} (h : (entries.map Entry.name).Nodup) :
    mergeNames entries = entries := by
  rw [mergeNames]
  induction entries using List.reverseRecOn with
  | nil => rfl
  | append_singleton entries e ih =>
    rw [List.map_append, List.nodup_append] at h
    obtain ⟨hentries, -, hdisjoint⟩ := h
    have hkept := ih hentries
    rw [List.foldl_append, List.foldl_cons, List.foldl_nil]
    generalize entries.foldl _ #[] = kept at hkept
    have hnew : (kept.findIdx? fun k => k.name = e.name) = none := by
      rw [Array.findIdx?_eq_none_iff]
      intro k hk
      have hmem : k ∈ entries := hkept ▸ Array.mem_toList_iff.2 hk
      have hne : k.name ≠ e.name := fun hname =>
        hdisjoint _ (List.mem_map_of_mem hmem) _ List.mem_cons_self hname
      exact decide_eq_false hne
    simp only [hnew, Array.toList_push, hkept]

/-! ### What is written -/

/-- The payloads with their headers. -/
def payloads (entries : List DraftEntry) : Bytes :=
  entries.flatMap localRecord

/-- What fits into an archive file: each of its entries, and where its directory begins. With exactly
as many entries as stands for too many of them there is no wide record, but the reader looks for what
leads to one, and might find it in the name of the last entry. -/
structure Fits (entries : List DraftEntry) : Prop where
  each : ∀ e ∈ entries, e.Fits
  count : entries.length ≠ tooMany
  size : (payloads entries).length < tooWide

/-- The wide end record of some entries, and what leads to it, if there is one. -/
def wideRecords (entries : List DraftEntry) : Bytes :=
  wideEnd (versionForAll entries) entries.length (directoryRecords 0 entries).length
    (payloads entries).length

/-- The record at the end of the archive file of some entries. -/
def lastRecord (entries : List DraftEntry) : Bytes :=
  endOfArchive entries.length (directoryRecords 0 entries).length (payloads entries).length

/-- Where the directory ends, and the wide record begins if there is one. -/
def directoryEnd (entries : List DraftEntry) : Nat :=
  (payloads entries).length + (directoryRecords 0 entries).length

/-- Where the record at the end begins. -/
def lastPosition (entries : List DraftEntry) : Nat :=
  directoryEnd entries + (wideRecords entries).length

variable {entries : List DraftEntry}

theorem encode_eq (entries : List DraftEntry) : encode entries = payloads entries ++
    (directoryRecords 0 entries ++ (wideRecords entries ++ lastRecord entries)) := by
  rw [← List.append_assoc, ← List.append_assoc]
  rfl

theorem drop_payloads (entries : List DraftEntry) :
    (encode entries).drop (payloads entries).length =
      directoryRecords 0 entries ++ (wideRecords entries ++ lastRecord entries) := by
  rw [encode_eq, List.drop_left]

theorem drop_directoryEnd (entries : List DraftEntry) :
    (encode entries).drop (directoryEnd entries) = wideRecords entries ++ lastRecord entries := by
  rw [directoryEnd, ← List.drop_drop, drop_payloads, List.drop_left]

theorem drop_lastPosition (entries : List DraftEntry) :
    (encode entries).drop (lastPosition entries) = lastRecord entries := by
  rw [lastPosition, ← List.drop_drop, drop_directoryEnd, List.drop_left]

theorem length_encode (entries : List DraftEntry) :
    (encode entries).length = lastPosition entries + 22 := by
  have hlast : (lastRecord entries).length = 22 := by
    rw [lastRecord, endOfArchive, length_encodeNumbers]
    rfl
  rw [encode_eq, List.length_append, List.length_append, List.length_append, hlast, lastPosition,
    directoryEnd]
  omega

theorem length_directoryRecord (offset : Nat) (e : DraftEntry) :
    (directoryRecord offset e).length = recordLength + (Text.utf8 e.writtenName).length := by
  simp only [directoryRecord, List.length_append, length_encodeNumbers, commonNumbers,
    List.cons_append, List.nil_append, List.map_cons, List.map_nil, List.sum_cons, List.sum_nil,
    Nat.reduceAdd, recordLength]

/-- The directory takes no less than the least that entries need, and at most twice as much as the
payloads, since these have headers with the same names. -/
theorem length_directoryRecords (offset : Nat) (entries : List DraftEntry) :
    entries.length * recordLength ≤ (directoryRecords offset entries).length ∧
      (directoryRecords offset entries).length ≤ 2 * (payloads entries).length := by
  induction entries generalizing offset with
  | nil => exact ⟨Nat.le_refl _, Nat.le_refl _⟩
  | cons e entries ih =>
    obtain ⟨hleast, hmost⟩ := ih (offset + (localRecord e).length)
    have hpayloads : payloads (e :: entries) = localRecord e ++ payloads entries := rfl
    have hlocal := length_localRecord e
    rw [recordLength] at hleast
    rw [directoryRecords, hpayloads, List.length_append, List.length_append, List.length_cons,
      length_directoryRecord, recordLength]
    omega

/-! ### The end record -/

theorem endRecord?_endOfArchive (count size offset : Nat) :
    endRecord? (endOfArchive count size offset) =
      some ⟨0, 0, min count tooMany, min count tooMany, min offset tooWide, 0⟩ := by
  have hcount : min count 0xFFFF % 256 ^ 2 = min count tooMany := by
    rw [tooMany]
    omega
  have hoffset : min offset 0xFFFFFFFF % 256 ^ 4 = min offset tooWide := by
    rw [tooWide]
    omega
  rw [← hcount, ← hoffset, endOfArchive]
  generalize min count 0xFFFF = c, min size 0xFFFFFFFF = s, min offset 0xFFFFFFFF = o
  have htaken := takeNumbers_encodeNumbers [(4, 0x06054B50), (2, 0), (2, 0), (2, c), (2, c), (4, s),
    (4, o), (2, 0)] []
  simp only [List.map_cons, List.map_nil, List.append_nil] at htaken
  simp only [endRecord?, htaken, Option.bind_eq_bind, Option.bind_some]
  rfl

/-- No end record begins among fewer octets than it takes. -/
theorem endRecord?_eq_none {bytes : Bytes} (h : bytes.length < 22) : endRecord? bytes = none := by
  have htaken : takeNumbers [4, 2, 2, 2, 2, 4, 4, 2] bytes = none := takeNumbers_eq_none h
  rw [endRecord?, htaken]
  rfl

/-! ### Where the directory is -/

/-- The first position that has a property decides, if it leads anywhere. -/
theorem findSome?_first {α : Type} {f : Nat → Option α} {p : Nat → Bool} {n first : Nat} {found : α}
    (hlt : first < n) (hfirst : p first = true) (hfound : f first = some found)
    (hearlier : ∀ i < first, p i = false) :
    ((List.range n).filter p).findSome? f = some found := by
  obtain ⟨more, rfl⟩ : ∃ more, n = first + 1 + more := ⟨n - (first + 1), by omega⟩
  have hnone : (List.range first).filter p = [] := by
    rw [List.filter_eq_nil_iff]
    intro i hi
    simp [hearlier i (List.mem_range.1 hi)]
  rw [List.range_add, List.range_succ, List.filter_append, List.filter_append, hnone,
    List.filter_cons_of_pos hfirst, List.filter_nil, List.nil_append, List.singleton_append,
    List.findSome?_cons, hfound]

/-- The last position that leads anywhere decides. -/
theorem findSome?_last {α : Type} {f : Nat → Option α} {p : Nat → Bool} {n last : Nat} {found : α}
    (hlt : last < n) (hlast : p last = true) (hfound : f last = some found)
    (hlater : ∀ i, last < i → f i = none) :
    ((List.range n).filter p).reverse.findSome? f = some found := by
  obtain ⟨more, rfl⟩ : ∃ more, n = last + 1 + more := ⟨n - (last + 1), by omega⟩
  have hmore : (((List.range more).map (last + 1 + ·)).filter p).reverse.findSome? f = none := by
    rw [List.findSome?_eq_none_iff]
    intro i hi
    obtain ⟨j, -, rfl⟩ := List.mem_map.1 (List.mem_of_mem_filter (List.mem_reverse.1 hi))
    exact hlater _ (by omega)
  rw [List.range_add, List.filter_append, List.reverse_append, List.findSome?_append, hmore,
    Option.none_or, List.range_succ, List.filter_append, List.filter_cons_of_pos hlast,
    List.filter_nil, List.reverse_append, List.reverse_singleton, List.singleton_append,
    List.findSome?_cons, hfound]

/-- The directory that the end record leads to is the first mark behind the payloads. -/
theorem find?_directory {file : Bytes} {place last : Nat} (hmark : isAt directoryMark file place)
    (hlength : place < file.length) (hlast : place + 4 ≤ last) :
    ((positionsOf directoryMark file).find? fun d => place ≤ d && d + 4 ≤ last) = some place := by
  rw [positionsOf_eq, List.find?_filter, List.find?_range_eq_some]
  refine ⟨by simp [hmark, hlast], List.mem_range.2 hlength, fun i hi => ?_⟩
  simp [Nat.not_le.2 hi]

theorem directoryRecords_cons (offset : Nat) (e : DraftEntry) (rest : List DraftEntry) :
    ∃ more, directoryRecords offset (e :: rest) = Bytes.ofNatLE 4 directoryMark ++ more := by
  rw [directoryRecords, directoryRecord]
  simp only [List.cons_append, encodeNumbers_cons, List.append_assoc]
  exact ⟨_, rfl⟩

/-- From an end record with all numbers in it the directory is found. -/
theorem narrowPlace?_encode (hsome : entries ≠ []) {count : Nat} (hcount : count ≠ 0) :
    narrowPlace? (positionsOf directoryMark (encode entries)) (lastPosition entries)
      ⟨0, 0, count, count, (payloads entries).length, 0⟩ =
        some ⟨(payloads entries).length, 0, count⟩ := by
  obtain ⟨e, rest, rfl⟩ := List.exists_cons_of_ne_nil hsome
  obtain ⟨more, hmore⟩ := directoryRecords_cons 0 e rest
  have hwidth : 4 ≤ (directoryRecords 0 (e :: rest)).length := by
    rw [hmore, List.length_append, Bytes.length_ofNatLE]
    exact Nat.le_add_right _ _
  have hmark : isAt directoryMark (encode (e :: rest)) (payloads (e :: rest)).length = true := by
    rw [encode_eq, hmore, List.append_assoc]
    exact isAt_append _ _ _
  have hlast : (payloads (e :: rest)).length + 4 ≤ lastPosition (e :: rest) := by
    rw [lastPosition, directoryEnd]
    omega
  have hlength : (payloads (e :: rest)).length < (encode (e :: rest)).length := by
    rw [length_encode]
    omega
  simp only [narrowPlace?, ne_eq, not_true_eq_false, if_false, hcount,
    find?_directory hmark hlength hlast, Option.bind_eq_bind, Option.bind_some, Nat.sub_self]

theorem length_wideEndRecord (version count size offset : Nat) :
    (wideEndRecord version count size offset).length = 56 := by
  rw [wideEndRecord, length_encodeNumbers]
  rfl

section Wide

variable (hmany : tooMany < entries.length) (hsize : (payloads entries).length < tooWide)

include hmany

theorem wideRecords_eq : wideRecords entries =
    wideEndRecord (versionForAll entries) entries.length (directoryRecords 0 entries).length
      (payloads entries).length ++ locator (directoryEnd entries) := by
  have hneeds : needsWideEnd entries.length (directoryRecords 0 entries).length
      (payloads entries).length = true :=
    Bool.or_eq_true_iff.2 (Or.inl (decide_eq_true hmany))
  rw [wideRecords, wideEnd, if_pos hneeds, directoryEnd]

theorem lastPosition_eq : lastPosition entries = directoryEnd entries + 56 + locatorLength := by
  have hlocator : (locator (directoryEnd entries)).length = locatorLength := by
    rw [locator, length_encodeNumbers]
    rfl
  rw [lastPosition, wideRecords_eq hmany, List.length_append, length_wideEndRecord, hlocator,
    Nat.add_assoc]

include hsize

omit hmany in
/-- The numbers in a wide record and its locator fit eight octets. -/
theorem lt_of_size : entries.length < 256 ^ 8 ∧ directoryEnd entries < 256 ^ 8 := by
  obtain ⟨hleast, hmost⟩ := length_directoryRecords 0 entries
  rw [recordLength] at hleast
  rw [tooWide] at hsize
  rw [directoryEnd]
  omega

/-- What leads to the wide record stands right before the end record. -/
theorem locatorBefore?_encode : locatorBefore? (encode entries) (lastPosition entries) =
    some ⟨0, directoryEnd entries, 1⟩ := by
  have hposition := lastPosition_eq hmany
  have hroom : ¬ lastPosition entries < locatorLength := by omega
  have hstart : lastPosition entries - locatorLength = directoryEnd entries + 56 := by omega
  have hdrop : (encode entries).drop (lastPosition entries - locatorLength) =
      locator (directoryEnd entries) ++ lastRecord entries := by
    rw [hstart, ← List.drop_drop, drop_directoryEnd, wideRecords_eq hmany, List.append_assoc]
    exact List.drop_left' (length_wideEndRecord _ _ _ _)
  have hfits := Nat.mod_eq_of_lt (lt_of_size hsize).2
  have htaken := takeNumbers_encodeNumbers [(4, 0x07064B50), (4, 0), (8, directoryEnd entries),
    (4, 1)] (lastRecord entries)
  simp only [List.map_cons, List.map_nil, hfits] at htaken
  simp only [locatorBefore?, if_neg hroom, hdrop, locator, htaken, Option.bind_eq_bind,
    Option.bind_some]
  rfl

/-- The wide record is read back where it was written. -/
theorem wideEndRecord?_encode : wideEndRecord? ((encode entries).drop (directoryEnd entries)) =
    some ⟨44, versionForAll entries % 256 ^ 2, versionForAll entries % 256 ^ 2, 0, 0,
      entries.length, entries.length, (payloads entries).length⟩ := by
  obtain ⟨hcount, hend⟩ := lt_of_size hsize
  have hcountFits := Nat.mod_eq_of_lt hcount
  have hoffsetFits : (payloads entries).length % 256 ^ 8 = (payloads entries).length :=
    Nat.mod_eq_of_lt (Nat.lt_of_le_of_lt (Nat.le_add_right _ _) hend)
  have htaken := takeNumbers_encodeNumbers [(4, 0x06064B50), (8, 44), (2, versionForAll entries),
    (2, versionForAll entries), (4, 0), (4, 0), (8, entries.length), (8, entries.length),
    (8, (directoryRecords 0 entries).length), (8, (payloads entries).length)]
    (locator (directoryEnd entries) ++ lastRecord entries)
  simp only [List.map_cons, List.map_nil, hcountFits, hoffsetFits] at htaken
  simp only [wideEndRecord?, drop_directoryEnd, wideRecords_eq hmany, List.append_assoc,
    wideEndRecord, htaken, Option.bind_eq_bind, Option.bind_some]
  rfl

/-- The wide record is the first mark of its kind from where the locator says, and it leads to the
directory. -/
theorem widePlace?_encode :
    widePlace? (encode entries) (lastPosition entries) ⟨0, directoryEnd entries, 1⟩ =
      some ⟨(payloads entries).length, 0, entries.length⟩ := by
  have hposition := lastPosition_eq hmany
  have hlast : lastPosition entries - locatorLength = directoryEnd entries + 56 := by omega
  have hmark : isAt wideEndMark (encode entries) (directoryEnd entries) = true := by
    rw [isAt, drop_directoryEnd, wideRecords_eq hmany, wideEndRecord, encodeNumbers_cons,
      List.isPrefixOf_iff_prefix, List.append_assoc, List.append_assoc]
    exact List.prefix_append _ _
  have hroom : entries.length * recordLength + (payloads entries).length ≤
      directoryEnd entries := by
    have hleast := (length_directoryRecords 0 entries).1
    rw [directoryEnd]
    omega
  have hfound : wideEndAt? (encode entries) ⟨0, directoryEnd entries, 1⟩
      (directoryEnd entries + 56) (directoryEnd entries) =
        some (directoryEnd entries, ⟨44, versionForAll entries % 256 ^ 2,
          versionForAll entries % 256 ^ 2, 0, 0, entries.length, entries.length,
          (payloads entries).length⟩) := by
    simp only [wideEndAt?, wideEndRecord?_encode hmany hsize, Nat.add_sub_cancel_left,
      Option.bind_eq_bind, Option.bind_some, decide_true, Bool.and_true, hroom, Nat.le_refl,
      if_true]
  have hlength : directoryEnd entries < (encode entries).length := by
    rw [length_encode]
    omega
  have hrecord := findSome?_first (p := fun p => (directoryEnd entries ≤ p &&
      p + 4 ≤ directoryEnd entries + 56) && isAt wideEndMark (encode entries) p)
    hlength (by simp [hmark]) hfound fun i hi => by simp [Nat.not_le.2 hi]
  simp only [widePlace?, hlast, positionsOf_eq, List.filter_filter, hrecord]
  simp

end Wide

/-- The end record leads to the directory, directly or through the wide record. -/
theorem directoryPlace?_encode (hfits : Fits entries) (hsome : entries ≠ []) :
    directoryPlace? (encode entries) (positionsOf directoryMark (encode entries))
      (lastPosition entries)
      ⟨0, 0, min entries.length tooMany, min entries.length tooMany,
        min (payloads entries).length tooWide, 0⟩ =
          some ⟨(payloads entries).length, 0, entries.length⟩ := by
  have hsize := hfits.size
  have hcount : entries.length ≠ 0 := fun hnone => hsome (List.length_eq_zero_iff.1 hnone)
  rw [Nat.min_eq_left (Nat.le_of_lt hsize), directoryPlace?]
  rcases Nat.lt_or_gt_of_ne hfits.count with hfew | hmany
  · rw [Nat.min_eq_left (Nat.le_of_lt hfew), if_neg]
    · exact narrowPlace?_encode hsome hcount
    · simp [EndRecord.isCapped, Nat.ne_of_lt hfew, Nat.ne_of_lt hsize]
  · rw [Nat.min_eq_right (Nat.le_of_lt hmany), if_pos, locatorBefore?_encode hmany hsize]
    · exact widePlace?_encode hmany hsize
    · simp [EndRecord.isCapped]

/-! ### Whole files -/

/-- The record at the end leads to all entries. -/
theorem entriesAt?_encode (hfits : Fits entries)
    (hdistinct : (entries.map DraftEntry.writtenName).Nodup) :
    entriesAt? (encode entries) (positionsOf directoryMark (encode entries))
      (lastPosition entries) = some (entries.map DraftEntry.entry) := by
  rw [entriesAt?, drop_lastPosition, lastRecord, endRecord?_endOfArchive]
  by_cases hsome : entries = []
  · subst hsome
    rfl
  · have hread := entriesFrom?_directoryRecords entries 0 _ (wideRecords entries ++ lastRecord entries)
      hfits.each (encode_eq entries) (Nat.le_of_eq (Nat.zero_add _))
      (Nat.lt_succ_of_lt hfits.size)
    have hnames : (entries.map DraftEntry.entry).map Entry.name =
        entries.map DraftEntry.writtenName := List.map_map
    have hmerged := mergeNames_of_nodup (hnames ▸ hdistinct)
    simp only [directoryPlace?_encode hfits hsome, Option.bind_eq_bind, Option.bind_some,
      drop_payloads]
    exact (congrArg (Option.map mergeNames) hread).trans (congrArg some hmerged)

/-- A written archive file is read as the entries that were written. -/
theorem entries?_encode (hfits : Fits entries)
    (hdistinct : (entries.map DraftEntry.writtenName).Nodup) :
    entries? (encode entries) = some (entries.map DraftEntry.entry) := by
  have hlength := length_encode entries
  have hmark : isAt endMark (encode entries) (lastPosition entries) = true := by
    rw [isAt, drop_lastPosition, lastRecord, endOfArchive, encodeNumbers_cons,
      List.isPrefixOf_iff_prefix]
    exact List.prefix_append _ _
  have hlast : lastPosition entries < (encode entries).length := by omega
  rw [entries?, positionsOf_eq endMark]
  refine findSome?_last hlast hmark (entriesAt?_encode hfits hdistinct) fun i hi => ?_
  have hshort : ((encode entries).drop i).length < 22 := by
    rw [List.length_drop]
    omega
  rw [entriesAt?, endRecord?_eq_none hshort]
  rfl

end Zip

end JarSigners
