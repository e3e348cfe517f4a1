import JarSigners.Archive.Reader
import JarSigners.Proofs.Archive.Payload
import JarSigners.Proofs.Manifest.Agreement
import JarSigners.Proofs.Steps

/-!
# Reading a payload as it arrives

An entry is checked while its octets arrive, by a running size and one hasher for each digest
that its manifest section states. How the octets are cut into pieces is up to who delivers them:
for any pieces the answer is that of a read of the whole (`checkArriving_eq_checkEntry`), and the
hashers end with the digests of the whole, each by the algorithm of its own attribute
(`foldlM_take?_begin`). What the answer is follows from the size, the end and the section that
the entry is held to (`arriving_payload_is_checked_whole`).
-/

set_option autoImplicit false

namespace JarSigners

namespace Signatures

/-- The manifest section that an entry is held to; there is none if nobody signed the entry. -/
def heldTo? (s : Signatures) (name : String) : Option Section :=
  if (s.coverage.signersOf name).isEmpty then .none
  else s.manifest.bind fun m => m.section? name

/-- Check an entry whose payload arrives in these pieces. -/
def checkArriving (s : Signatures) (limit : UInt64) (name : String) (pieces : List Bytes)
    (intact : Bool) : Except ReadError CheckedEntry :=
  (checkPieces name limit (s.expectedDigests name) pieces intact).map fun size =>
    ⟨name, size, s.signersOf name⟩

section Arriving

variable {s : Signatures} {limit : UInt64} {name : String} {pieces : List Bytes} {intact : Bool}
  {payload : Bytes} {a : Digest.Algorithm}

/-- The expected digests are those of the section that the entry is held to. -/
theorem expectedDigests_eq (s : Signatures) (name : String) :
    s.expectedDigests name =
      ((s.heldTo? name).map fun found => found.digests "-Digest").getD [] := by
  rw [expectedDigests, heldTo?]
  split
  · rfl
  · cases s.manifest with
    | none => rfl
    | some m => rfl

/-- No expected digest differs if the section tolerates the payload. -/
theorem firstDiffering?_expected_eq_none_iff :
    firstDiffering? (s.expectedDigests name) payload = .none ↔
      ∀ found ∈ s.heldTo? name, found.Tolerates "-Digest" payload := by
  rw [expectedDigests_eq]
  cases s.heldTo? name with
  | none => simp [firstDiffering?]
  | some found =>
    have hfirst : firstDiffering? (found.digests "-Digest") payload = .none ↔
        (found.digests "-Digest").find? (Agreement.objects payload) = .none :=
      Option.map_eq_none_iff
    simpa using hfirst.trans Section.find?_digests_eq_none_iff

/-- The expected digest that differs is that of the first attribute that contradicts. -/
theorem firstDiffering?_expected_eq_some_iff :
    firstDiffering? (s.expectedDigests name) payload = some a ↔
      ∃ found ∈ s.heldTo? name, found.Contradicts "-Digest" payload a := by
  rw [expectedDigests_eq]
  cases s.heldTo? name with
  | none => simp [firstDiffering?]
  | some found =>
    have hfirst : firstDiffering? (found.digests "-Digest") payload = some a ↔
        found.Contradicts "-Digest" payload a := Section.map_find?_digests_eq_some_iff
    simpa using hfirst

/-- The answer for any pieces is that of a read of the whole payload. -/
theorem checkArriving_eq_checkEntry :
    s.checkArriving limit name pieces intact =
      s.checkEntry limit ⟨name, .octets pieces.flatten intact⟩ := by
  have hwhole : (Entry.mk name (.octets pieces.flatten intact)).check limit
      (s.expectedDigests name) = checkPieces name limit (s.expectedDigests name) pieces intact := by
    rw [checkPieces_eq, Entry.check_octets limit _ rfl]
  rw [checkArriving, checkEntry, hwhole]

/-- What the check of pieces comes to: their size, their end and then the expected digests. -/
theorem checkArriving_eq :
    s.checkArriving limit name pieces intact =
      if Admits limit pieces.flatten.length then
        if intact then
          match firstDiffering? (s.expectedDigests name) pieces.flatten with
          | some a => .error (.untrusted (.entryDiffers name a))
          | .none => .ok ⟨name, pieces.flatten.length, s.signersOf name⟩
        else .error (.corrupt name)
      else .error (.tooLarge name limit) := by
  rw [checkArriving, checkPieces_eq]
  by_cases hfits : Admits limit pieces.flatten.length
  · rw [if_pos hfits, if_pos hfits]
    cases intact with
    | false => rfl
    | true =>
      cases firstDiffering? (s.expectedDigests name) pieces.flatten with
      | none => rfl
      | some a => rfl
  · rw [if_neg hfits, if_neg hfits]
    rfl

/-- Only a payload beyond the limit is too large. -/
theorem checkArriving_eq_tooLarge_iff :
    s.checkArriving limit name pieces intact = .error (.tooLarge name limit) ↔
      ¬ Admits limit pieces.flatten.length := by
  rw [checkArriving_eq]
  generalize pieces.flatten = payload
  by_cases hfits : Admits limit payload.length
  · cases intact with
    | false => simp [hfits]
    | true =>
      cases hdiffers : firstDiffering? (s.expectedDigests name) payload with
      | none => simp [hfits]
      | some a => simp [hfits]
  · simp [hfits]

/-- A payload is accepted within the limit, to its end, under a section that tolerates it. -/
theorem checkArriving_eq_ok_iff {checked : CheckedEntry} :
    s.checkArriving limit name pieces intact = .ok checked ↔
      (Admits limit pieces.flatten.length ∧ intact = true ∧
        ∀ found ∈ s.heldTo? name, found.Tolerates "-Digest" pieces.flatten) ∧
      checked = ⟨name, pieces.flatten.length, s.signersOf name⟩ := by
  rw [checkArriving_eq, ← firstDiffering?_expected_eq_none_iff]
  generalize pieces.flatten = payload
  by_cases hfits : Admits limit payload.length
  · cases intact with
    | false => simp [hfits]
    | true =>
      cases hdiffers : firstDiffering? (s.expectedDigests name) payload with
      | none => simp [hfits, eq_comm]
      | some a => simp [hfits]
  · simp [hfits]

/-- A payload within the limit is refused by the first attribute that contradicts it. -/
theorem checkArriving_eq_entryDiffers_iff :
    s.checkArriving limit name pieces intact = .error (.untrusted (.entryDiffers name a)) ↔
      Admits limit pieces.flatten.length ∧ intact = true ∧
        ∃ found ∈ s.heldTo? name, found.Contradicts "-Digest" pieces.flatten a := by
  rw [checkArriving_eq, ← firstDiffering?_expected_eq_some_iff]
  generalize pieces.flatten = payload
  by_cases hfits : Admits limit payload.length
  · cases intact with
    | false => simp [hfits]
    | true =>
      cases hdiffers : firstDiffering? (s.expectedDigests name) payload with
      | none => simp [hfits]
      | some b => simp [hfits]
  · simp [hfits]

end Arriving

end Signatures

/-- The hashers end with one digest of the whole payload for each expected one, in their order,
unless the payload is beyond the limit. -/
theorem PayloadCheck.finish_foldlM_take?_begin (limit : UInt64) (expected : List ExpectedDigest)
    (pieces : List Bytes) :
    (pieces.foldlM (take? limit) (begin expected)).map (fun c =>
        expected.zip (c.hashers.map Digest.Hasher.finish)) =
      if Admits limit pieces.flatten.length then
        some (expected.map fun d => (d, d.1.digest pieces.flatten))
      else none := by
  have htaken := foldlM_take? limit pieces (.begin expected) (Or.inr (Nat.zero_le _))
  simp only [begin, Nat.zero_add, List.map_map, Function.comp_def] at htaken
  rw [begin, htaken]
  by_cases hfits : Admits limit pieces.flatten.length
  · rw [if_pos hfits, if_pos hfits]
    simp only [Option.map_some, List.map_map, Function.comp_def, Digest.Hasher.finish_feed_pieces]
    rw [← List.map_prod_left_eq_zip]
  · rw [if_neg hfits, if_neg hfits]
    rfl

/-- A read in pieces is a check of the whole. Whatever an open archive has loaded and wherever in
it the entry is, the answer to a read of the entry is the one for any pieces that its payload may
arrive in. It is that the entry is too large just if there is a limit and the payload is longer.
Otherwise, if the payload can be read to its end, the entry is accepted just if each attribute of
the section it is held to that states a digest states the one of the whole payload, by the
attribute's own algorithm, and it is refused for the algorithm of the first attribute that does
not. The hashers that run along have the digests of the whole payload in the end, in the order
of the expected digests. -/
theorem arriving_payload_is_checked_whole (s : Signatures) (limits : SizeLimits) (name : String)
    (pieces : List Bytes) (intact : Bool) (before after : List Entry) :
    let payload := pieces.flatten
    let archive : SignedArchive :=
      ⟨before ++ ⟨name, .octets payload intact⟩ :: after, limits, some s⟩
    let answer := s.checkArriving limits.entry name pieces intact
    let tooLarge := 0 < limits.entry.toNat ∧ limits.entry.toNat < payload.length
    answer = (archive.read before.length).result ∧
    (answer = .error (.tooLarge name limits.entry) ↔ tooLarge) ∧
    (∀ checked, answer = .ok checked ↔
      (¬ tooLarge ∧ intact = true ∧
        ∀ found ∈ s.heldTo? name, ∀ entry ∈ found.attributes, ∀ a : Digest.Algorithm,
          a.Labels "-Digest" entry.1 → Base64.spells entry.2 (a.digest payload) = true) ∧
      checked = ⟨name, payload.length, s.signersOf name⟩) ∧
    (∀ a, answer = .error (.untrusted (.entryDiffers name a)) ↔
      ¬ tooLarge ∧ intact = true ∧
        ∃ found ∈ s.heldTo? name, found.Contradicts "-Digest" payload a) ∧
    (pieces.foldlM (PayloadCheck.take? limits.entry)
        (PayloadCheck.begin (s.expectedDigests name))).map (fun c =>
          (s.expectedDigests name).zip (c.hashers.map Digest.Hasher.finish)) =
      if tooLarge then none
      else some ((s.expectedDigests name).map fun d => (d, d.1.digest payload)) := by
  intro payload archive answer tooLarge
  have hfits : Admits limits.entry payload.length ↔ ¬ tooLarge := by
    have hzero : limits.entry = 0 ↔ limits.entry.toNat = 0 := UInt64.toNat_inj.symm
    simp only [Admits, tooLarge, hzero]
    omega
  have hread : (archive.read before.length).result =
      s.checkEntry limits.entry ⟨name, .octets payload intact⟩ := by
    simp [SignedArchive.read, SignedArchive.currentSignatures, archive]
  refine ⟨?_, ?_, ?_, ?_, ?_⟩
  · rw [hread]
    exact Signatures.checkArriving_eq_checkEntry
  · rw [Signatures.checkArriving_eq_tooLarge_iff, hfits, not_not]
  · intro checked
    rw [← hfits]
    exact Signatures.checkArriving_eq_ok_iff
  · intro a
    rw [← hfits]
    exact Signatures.checkArriving_eq_entryDiffers_iff
  · rw [PayloadCheck.finish_foldlM_take?_begin]
    by_cases hlarge : tooLarge
    · rw [if_pos hlarge, if_neg fun h => hfits.1 h hlarge]
    · rw [if_neg hlarge, if_pos (hfits.2 hlarge)]

end JarSigners
