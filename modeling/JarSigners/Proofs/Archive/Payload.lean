import JarSigners.Archive.Entry

/-!
# What reading a payload comes to

A metadata entry is read whole or not at all (`metadataOctets_eq_ok_iff`), except under the
largest limit of all, at which the octet beyond the limit can no longer be counted and every
entry reads as empty. A content entry is read in pieces under a running size and running
digests; the outcome is that of checking the size first, then the end, then the digests of the
whole payload one after the other (`check_octets`).
-/

set_option autoImplicit false

namespace JarSigners

/-- Whether a payload of this size is within a limit. -/
def Admits (limit : UInt64) (size : Nat) : Prop :=
  limit = 0 ∨ size ≤ limit.toNat

instance (limit : UInt64) (size : Nat) : Decidable (Admits limit size) :=
  inferInstanceAs (Decidable (_ ∨ _))

theorem not_admits_iff {limit : UInt64} {size : Nat} :
    ¬ Admits limit size ↔ limit ≠ 0 ∧ limit.toNat < size := by
  simp [Admits]

/-- What comes to a part of a payload comes to no more than the payload. -/
theorem Admits.mono {limit : UInt64} {size more : Nat} (h : Admits limit more)
    (hle : size ≤ more) : Admits limit size := by
  rcases h with h | h
  · exact Or.inl h
  · exact Or.inr (Nat.le_trans hle h)

/-- The largest limit, at which `limit + 1` is zero again. -/
def wrappingLimit : UInt64 := 0xFFFFFFFFFFFFFFFF

theorem toNat_add_one {limit : UInt64} (h : limit ≠ wrappingLimit) :
    (limit + 1).toNat = limit.toNat + 1 := by
  have hlt := limit.toNat_lt
  have hne : limit.toNat ≠ 18446744073709551615 := by
    intro heq
    exact h (UInt64.toNat_inj.1 heq)
  rw [UInt64.toNat_add]
  have hone : (1 : UInt64).toNat = 1 := rfl
  omega

namespace Entry

/-- A metadata entry's size and its end decide how it reads, in that order. -/
theorem metadataOctets_octets {e : Entry} {content : Bytes} {intact : Bool} {limit : UInt64}
    (hlimit : limit ≠ wrappingLimit) (hpayload : e.payload = .octets content intact) :
    e.metadataOctets limit =
      if Admits limit content.length then
        if intact then .ok content else .error (.corrupt e.name)
      else .error (.tooLarge e.name limit) := by
  rw [metadataOctets, hpayload]
  by_cases hzero : limit = 0
  · have hfits : Admits limit content.length := Or.inl hzero
    simp only [if_pos hzero, if_pos hfits]
  · simp only [if_neg hzero, toNat_add_one hlimit]
    by_cases hsize : content.length ≤ limit.toNat
    · have hfits : Admits limit content.length := Or.inr hsize
      have htake : content.take (limit.toNat + 1) = content :=
        List.take_of_length_le (by omega)
      have hshort : content.length < limit.toNat + 1 := by omega
      have hwithin : ¬ limit.toNat < content.length := by omega
      rw [if_pos hfits, htake, if_neg hwithin]
      cases intact <;> simp [hshort]
    · have hbeyond : ¬ Admits limit content.length :=
        not_admits_iff.2 ⟨hzero, Nat.lt_of_not_le hsize⟩
      have hlong : ¬ content.length < limit.toNat + 1 := by omega
      have hread : limit.toNat < (content.take (limit.toNat + 1)).length := by
        rw [List.length_take]
        omega
      rw [if_neg hbeyond, if_pos hread, if_neg (by simp [hlong])]

/-- A metadata entry that reads within a limit has its whole payload read. -/
theorem metadataOctets_eq_ok_iff {e : Entry} {limit : UInt64} {bytes : Bytes}
    (hlimit : limit ≠ wrappingLimit) :
    e.metadataOctets limit = .ok bytes ↔
      e.payload = .octets bytes true ∧ Admits limit bytes.length := by
  cases hpayload : e.payload with
  | locked => simp [metadataOctets, hpayload]
  | octets content intact =>
    rw [metadataOctets_octets hlimit hpayload, Payload.octets.injEq]
    by_cases hfits : Admits limit content.length
    · cases intact with
      | false => simp [hfits]
      | true =>
        simp only [if_pos hfits, if_true, Except.ok.injEq, and_true]
        constructor
        · rintro rfl
          exact ⟨rfl, hfits⟩
        · exact And.left
    · simp only [if_neg hfits, reduceCtorEq, false_iff]
      rintro ⟨⟨rfl, _⟩, hadmits⟩
      exact hfits hadmits

/-- Under the largest limit of all nothing is read. -/
theorem metadataOctets_wrappingLimit {e : Entry} {bytes : Bytes}
    (h : e.metadataOctets wrappingLimit = .ok bytes) : bytes = [] := by
  unfold metadataOctets at h
  cases hp : e.payload with
  | locked => simp [hp] at h
  | octets content intact =>
    simp only [hp] at h
    have hzero : (wrappingLimit = 0) = False := by decide
    have hwindow : (wrappingLimit + 1).toNat = 0 := rfl
    simp only [hzero, hwindow, if_false, List.take_zero, List.length_nil, Nat.not_lt_zero,
      decide_false, Bool.false_and, Bool.false_eq_true, Except.ok.injEq] at h
    exact h.symm

end Entry

namespace PayloadCheck

/-- Taking all pieces is taking the whole, if that is within the limit. -/
theorem foldlM_take? (limit : UInt64) (pieces : List Bytes) (c : PayloadCheck)
    (hbefore : Admits limit c.size) :
    pieces.foldlM (take? limit) c =
      if Admits limit (c.size + pieces.flatten.length) then
        some ⟨c.size + pieces.flatten.length, c.hashers.map fun h => pieces.foldl .feed h⟩
      else none := by
  induction pieces generalizing c with
  | nil => simp [hbefore]
  | cons piece pieces ih =>
    rw [List.foldlM_cons]
    by_cases hpiece : Admits limit (c.size + piece.length)
    · have htake : take? limit c piece =
          some ⟨c.size + piece.length, c.hashers.map fun h => h.feed piece⟩ := by
        rw [take?, if_neg]
        exact fun hbeyond => not_admits_iff.2 hbeyond hpiece
      rw [htake]
      simp only [Option.bind_eq_bind, Option.bind_some]
      rw [ih _ hpiece]
      simp only [List.flatten_cons, List.length_append, List.map_map, List.foldl_cons,
        Nat.add_assoc]
      rfl
    · have htake : take? limit c piece = none := by
        rw [take?, if_pos]
        exact not_admits_iff.1 hpiece
      have hwhole : ¬ Admits limit (c.size + (piece :: pieces).flatten.length) := by
        intro h
        refine hpiece (h.mono ?_)
        simp only [List.flatten_cons, List.length_append]
        omega
      rw [htake, if_neg hwhole]
      rfl

end PayloadCheck

/-- The first stated digest that some octets do not have. -/
def firstDiffering? (stated : List ExpectedDigest) (octets : Bytes) : Option Digest.Algorithm :=
  (stated.find? fun d => !Base64.spells d.2 (d.1.digest octets)).map Prod.fst

/-- Octets have all stated digests if there is none that they do not have. -/
theorem firstDiffering?_eq_none_iff {stated : List ExpectedDigest} {octets : Bytes} :
    firstDiffering? stated octets = none ↔
      ∀ d ∈ stated, Base64.spells d.2 (d.1.digest octets) = true := by
  simp [firstDiffering?]

/-- The digest named is the first in the order stated. -/
theorem firstDiffering?_append_cons {before after : List ExpectedDigest} {d : ExpectedDigest}
    {octets : Bytes} (hbefore : ∀ d ∈ before, Base64.spells d.2 (d.1.digest octets) = true)
    (hd : Base64.spells d.2 (d.1.digest octets) = false) :
    firstDiffering? (before ++ d :: after) octets = some d.1 := by
  have hnone : before.find? (fun d => !Base64.spells d.2 (d.1.digest octets)) = none := by
    simpa using hbefore
  simp [firstDiffering?, List.find?_append, hnone, hd]

namespace PayloadCheck

/-- Running digests find the difference that digests of the whole find. -/
theorem firstMismatch?_pieces (size : Nat) (expected : List ExpectedDigest)
    (pieces : List Bytes) :
    firstMismatch? expected
        ⟨size, expected.map fun d => pieces.foldl .feed (Digest.Hasher.begin d.1)⟩ =
      firstDiffering? expected pieces.flatten := by
  simp only [firstMismatch?, firstDiffering?]
  induction expected with
  | nil => rfl
  | cons d rest ih =>
    simp only [List.map_cons, List.zip_cons_cons, List.find?_cons,
      Digest.Hasher.finish_feed_pieces]
    cases hd : Base64.spells d.2 (d.1.digest pieces.flatten) with
    | false => rfl
    | true => exact ih

end PayloadCheck

/-- The outcome of a check does not depend on how the payload comes in pieces. -/
theorem checkPieces_eq (name : String) (limit : UInt64) (expected : List ExpectedDigest)
    (pieces : List Bytes) (intact : Bool) :
    checkPieces name limit expected pieces intact =
      if Admits limit pieces.flatten.length then
        if intact then
          match firstDiffering? expected pieces.flatten with
          | some a => .error (.untrusted (.entryDiffers name a))
          | none => .ok pieces.flatten.length
        else .error (.corrupt name)
      else .error (.tooLarge name limit) := by
  have htaken := PayloadCheck.foldlM_take? limit pieces (.begin expected)
    (Or.inr (Nat.zero_le _))
  simp only [PayloadCheck.begin, Nat.zero_add, List.map_map, Function.comp_def] at htaken
  by_cases hfits : Admits limit pieces.flatten.length
  · cases hdiffers : firstDiffering? expected pieces.flatten <;>
      simp only [checkPieces, PayloadCheck.begin, htaken, if_pos hfits,
        PayloadCheck.firstMismatch?_pieces, hdiffers]
  · simp only [checkPieces, PayloadCheck.begin, htaken, if_neg hfits]

namespace Entry

/-- A content entry's size, its end and its stated digests decide how it reads, in that order. -/
theorem check_octets {e : Entry} {content : Bytes} {intact : Bool} (limit : UInt64)
    (expected : List ExpectedDigest) (hpayload : e.payload = .octets content intact) :
    e.check limit expected =
      if Admits limit content.length then
        if intact then
          match firstDiffering? expected content with
          | some a => .error (.untrusted (.entryDiffers e.name a))
          | none => .ok content.length
        else .error (.corrupt e.name)
      else .error (.tooLarge e.name limit) := by
  have hpieces : (content.pieces PayloadCheck.pieceSize).flatten = content :=
    Bytes.flatten_pieces (by decide) content
  rw [check, hpayload]
  simp only [checkPieces_eq, hpieces]

/-- An entry that reads without error is intact, within the limit and has all its digests. -/
theorem check_eq_ok_iff {e : Entry} {limit : UInt64} {expected : List ExpectedDigest}
    {size : Nat} :
    e.check limit expected = .ok size ↔
      ∃ content, e.payload = .octets content true ∧ Admits limit content.length ∧
        firstDiffering? expected content = none ∧ size = content.length := by
  cases hpayload : e.payload with
  | locked => simp [check, hpayload]
  | octets content intact =>
    rw [check_octets limit expected hpayload]
    by_cases hfits : Admits limit content.length
    · cases intact with
      | false => simp [hfits]
      | true =>
        cases hdiffers : firstDiffering? expected content with
        | some a => simp [hfits, hdiffers]
        | none => simp [hfits, hdiffers, eq_comm]
    · simp only [if_neg hfits, reduceCtorEq, false_iff]
      rintro ⟨octets, hoctets, hadmits, _⟩
      cases hoctets
      exact hfits hadmits

end Entry

end JarSigners
