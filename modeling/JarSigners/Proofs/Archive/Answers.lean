import JarSigners.Proofs.Archive.Reading

/-!
# Answers entry by entry

A fresh archive answers to a read of an entry in two steps: its signatures are loaded, and the
entry is checked under them. Nothing else about the archive counts, and neither does where in it
the entry stands (`read_fresh_result`).
-/

set_option autoImplicit false

namespace JarSigners

/-- The answer to a read of an entry on a fresh archive. -/
def answerTo (entries : List Entry) (limits : SizeLimits) (e : Entry) :
    Except ReadError CheckedEntry := do
  let s ← verifySignatures entries limits.metadata
  s.checkEntry limits.entry e

theorem answerTo_of_load {entries : List Entry} {limits : SizeLimits} {s : Signatures}
    (hload : verifySignatures entries limits.metadata = .ok s) (e : Entry) :
    answerTo entries limits e = s.checkEntry limits.entry e := by
  rw [answerTo, hload]
  rfl

/-- The answer is the same if the signatures load the same. -/
theorem answerTo_congr {entries others : List Entry} {limits : SizeLimits}
    (hload : verifySignatures others limits.metadata = verifySignatures entries limits.metadata)
    (e : Entry) : answerTo others limits e = answerTo entries limits e := by
  rw [answerTo, answerTo, hload]

theorem answerTo_eq_ok_iff {entries : List Entry} {limits : SizeLimits} {e : Entry}
    {checked : CheckedEntry} :
    answerTo entries limits e = .ok checked ↔
      ∃ s, verifySignatures entries limits.metadata = .ok s ∧
        s.checkEntry limits.entry e = .ok checked := by
  rw [answerTo, Steps.bind_eq_ok_iff]

/-- A fresh archive answers to a read with what it says about the entry at the index. -/
theorem read_fresh_result (entries : List Entry) (limits : SizeLimits) (i : Nat) :
    (((SignedArchive.opened entries).limitedTo limits).read i).result =
      match entries[i]? with
      | none => .error .notArchive
      | some e => answerTo entries limits e := by
  have hentries : ((SignedArchive.opened entries).limitedTo limits).entries = entries := rfl
  cases hentry : entries[i]? with
  | none => rw [SignedArchive.read, hentries, hentry]
  | some e =>
    cases hload : verifySignatures entries limits.metadata with
    | ok s =>
      rw [read_opened_result hload hentry]
      exact (answerTo_of_load hload e).symm
    | error failure =>
      have hlt : i < entries.length := (List.getElem?_eq_some_iff.1 hentry).1
      rw [SignedArchive.read_eq_error_of_load rfl hload hlt]
      simp [answerTo, hload]

theorem read_fresh_eq_answerTo {entries : List Entry} {i : Nat} {e : Entry}
    (hentry : entries[i]? = some e) (limits : SizeLimits) :
    (((SignedArchive.opened entries).limitedTo limits).read i).result =
      answerTo entries limits e := by
  rw [read_fresh_result, hentry]

/-- An answer names the entry that was read. -/
theorem name_of_answerTo {entries : List Entry} {limits : SizeLimits} {e : Entry}
    {checked : CheckedEntry} (h : answerTo entries limits e = .ok checked) :
    checked.name = e.name := by
  obtain ⟨s, _, hcheck⟩ := answerTo_eq_ok_iff.1 h
  obtain ⟨size, _, rfl⟩ := Steps.map_eq_ok_iff.1 hcheck
  rfl

/-- An answer grants those who sign the name, in the order of the archive, or nobody. -/
theorem signers_of_answerTo {entries : List Entry} {limits : SizeLimits} {e : Entry}
    {checked : CheckedEntry} (h : answerTo entries limits e = .ok checked) :
    checked.signers =
      if statedDigests entries e.name = [] then [] else coveringSigners entries e.name := by
  obtain ⟨s, hload, hcheck⟩ := answerTo_eq_ok_iff.1 h
  obtain ⟨size, _, rfl⟩ := Steps.map_eq_ok_iff.1 hcheck
  exact (loaded_of_verifySignatures hload).signersOf_eq e.name

/-- The file of the signed archive, as it stands in the archive. -/
def signedFile : Entry := ⟨"a", .octets (Bytes.ofAscii "a") true⟩

/-- The signed archive says of its file that its signer signed it. -/
theorem answerTo_signedArchive :
    answerTo signedArchive .none signedFile =
      .ok ⟨"a", 1, [⟨archiveSigner.certificate, []⟩]⟩ := by
  obtain ⟨s, hs⟩ := verifySignatures_signedArchive
  have hload : verifySignatures signedArchive SizeLimits.none.metadata = .ok s := hs
  have hstated : statedDigests signedArchive "a" ≠ [] := by
    rw [statedDigests_signedArchive]
    exact List.cons_ne_nil _ _
  have hmatch : ∀ d ∈ statedDigests signedArchive "a",
      Base64.spells d.2 (d.1.digest (Bytes.ofAscii "a")) = true := by
    rw [statedDigests_signedArchive]
    decide +kernel
  have hpayload : signedFile.payload = .octets (Bytes.ofAscii "a") true := rfl
  have hchecked : s.checkEntry SizeLimits.none.entry signedFile =
      .ok ⟨"a", 1, coveringSigners signedArchive "a"⟩ :=
    (loaded_of_verifySignatures hs).checkEntry_matching hpayload (Or.inl rfl) hstated hmatch
  rw [answerTo_of_load hload, hchecked, coveringSigners_signedArchive]

end JarSigners
