import JarSigners.Proofs.Signers.Reduction

/-!
# Evidence for shared signers

Whoever is among the shared signers of an archive has signed every content entry of it, and the
archive holds all the evidence for that, entry by entry (`Evidence`); and whoever there is
evidence for is among them. Sets of signers go by fingerprints, so this holds chain by chain
where chains have fingerprints of their own.
-/

set_option autoImplicit false

namespace JarSigners

/-! ### Evidence -/

/-- The digests that a manifest section states for an entry: at least one is known, and the
payload has all that are. -/
def DigestsMatch (m : Manifest) (e : Entry) : Prop :=
  ∃ found content, m.section? e.name = some found ∧ e.octets? = some content ∧
    found.digests "-Digest" ≠ [] ∧
    ∀ d ∈ found.digests "-Digest", Base64.spells d.2 (d.1.digest content) = true

/-- A block and its signature file say that a chain signs a name. -/
def PairedBlock.Vouches (m : Manifest) (c : Chain) (name : String) (p : PairedBlock) : Prop :=
  ∃ chains names, p.chains? = some chains ∧ c ∈ chains ∧ p.names? m = some names ∧ name ∈ names

/-- All that has to be there for a chain to count as a signer of an entry: a manifest, a block
with a signature file that vouch for it, and digests in the manifest that match. -/
def Evidence (entries : List Entry) (c : Chain) (e : Entry) : Prop :=
  ∃ m, manifest? entries = some m ∧
    (∃ block ∈ entries, EntryName.isBlock block.name = true ∧
      ∃ file, signatureFileBeside? entries block = some file ∧
        PairedBlock.Vouches m c e.name ⟨block, file⟩) ∧
    DigestsMatch m e

/-- A chain signs a name if some block vouches for it. -/
theorem mem_coveringSigners_iff {entries : List Entry} {c : Chain} {name : String} :
    c ∈ coveringSigners entries name ↔
      ∃ m, manifest? entries = some m ∧ ∃ p ∈ pairedBlocks entries, p.Vouches m c name := by
  unfold coveringSigners
  cases manifest? entries with
  | none => simp
  | some m =>
    simp only [SignatureBlock.mem_firsts, List.mem_flatMap, PairedBlock.mem_chainsFor_iff,
      PairedBlock.Vouches, Option.some.injEq, exists_eq_left']

theorem evidence_iff {entries : List Entry} {c : Chain} {e : Entry} :
    Evidence entries c e ↔
      c ∈ coveringSigners entries e.name ∧
        ∀ m, manifest? entries = some m → DigestsMatch m e := by
  rw [mem_coveringSigners_iff]
  constructor
  · rintro ⟨m, hm, ⟨block, hmem, hblock, file, hfile, hvouches⟩, hmatch⟩
    refine ⟨⟨m, hm, ⟨block, file⟩, mem_pairedBlocks_iff.2 ⟨hmem, hblock, hfile⟩, hvouches⟩, ?_⟩
    intro m' hm'
    cases hm.symm.trans hm'
    exact hmatch
  · rintro ⟨⟨m, hm, p, hp, hvouches⟩, hmatch⟩
    obtain ⟨hmem, hblock, hfile⟩ := mem_pairedBlocks_iff.1 hp
    exact ⟨m, hm, ⟨p.block, hmem, hblock, p.signatureFile, hfile, hvouches⟩, hmatch m hm⟩

theorem digestsMatch_iff {entries : List Entry} {m : Manifest} {e : Entry} {content : Bytes}
    (hmanifest : manifest? entries = some m) (hcontent : e.octets? = some content) :
    DigestsMatch m e ↔
      statedDigests entries e.name ≠ [] ∧
        ∀ d ∈ statedDigests entries e.name, Base64.spells d.2 (d.1.digest content) = true := by
  rw [statedDigests, hmanifest]
  unfold DigestsMatch
  cases hfound : m.section? e.name with
  | none => simp [hfound]
  | some found => simp [hfound, hcontent]

/-- The signers that a read grants are those for which there is evidence. -/
theorem mem_signers_iff_evidence {entries : List Entry} {s : Signatures} (h : s.Loaded entries)
    {limit : UInt64} {e : Entry} {checked : CheckedEntry}
    (hread : s.checkEntry limit e = .ok checked) (c : Chain) :
    c ∈ checked.signers ↔ Evidence entries c e := by
  obtain ⟨size, hcheck, rfl⟩ := Steps.map_eq_ok_iff.1 hread
  obtain ⟨content, hpayload, _, hdigests, rfl⟩ := Entry.check_eq_ok_iff.1 hcheck
  have hcontent := Entry.octets?_eq_some_iff.2 hpayload
  rw [h.expectedDigests_eq] at hdigests
  simp only [h.signersOf_eq, evidence_iff]
  constructor
  · intro hc
    split at hc
    · cases hc
    next hstated =>
      have hcovered : coveringSigners entries e.name ≠ [] := List.ne_nil_of_mem hc
      rw [if_neg hcovered, firstDiffering?_eq_none_iff] at hdigests
      exact ⟨hc, fun m hm => (digestsMatch_iff hm hcontent).2 ⟨hstated, hdigests⟩⟩
  · rintro ⟨hc, hmatch⟩
    obtain ⟨m, hm, _⟩ := mem_coveringSigners_iff.1 hc
    rw [if_neg ((digestsMatch_iff hm hcontent).1 (hmatch m hm)).1]
    exact hc

/-- An answer grants the signers of an entry for which there is evidence. -/
theorem mem_signers_answerTo_iff {entries : List Entry} {limits : SizeLimits} {e : Entry}
    {checked : CheckedEntry} (h : answerTo entries limits e = .ok checked) (c : Chain) :
    c ∈ checked.signers ↔ Evidence entries c e := by
  obtain ⟨s, hload, hcheck⟩ := answerTo_eq_ok_iff.1 h
  exact mem_signers_iff_evidence (loaded_of_verifySignatures hload) hcheck c

/-! ### Soundness and completeness -/

/-- All chains that the blocks of an archive verify. -/
def presentedChains (entries : List Entry) : List Chain :=
  (pairedBlocks entries).flatMap fun p => p.chains?.getD []

/-- No two chains of an archive share a fingerprint. -/
def FingerprintsDistinct (entries : List Entry) : Prop :=
  ∀ c ∈ presentedChains entries, ∀ d ∈ presentedChains entries,
    c.fingerprint = d.fingerprint → c = d

/-- A signer is presented by a block. -/
theorem Evidence.mem_presentedChains {entries : List Entry} {c : Chain} {e : Entry}
    (h : Evidence entries c e) : c ∈ presentedChains entries := by
  obtain ⟨m, _, ⟨block, hmem, hblock, file, hfile, chains, _, hchains, hc, _⟩, _⟩ := h
  refine List.mem_flatMap.2 ⟨⟨block, file⟩, mem_pairedBlocks_iff.2 ⟨hmem, hblock, hfile⟩, ?_⟩
  rw [hchains]
  exact hc

/-- Without content there are no shared signers. -/
theorem sharedSigners_eq_empty {entries : List Entry} {limits : SizeLimits} {set : SignerSet}
    (h : (sharedSigners entries limits).result = .ok set)
    (hnone : ∀ e ∈ entries, e.isContent = false) : set = .empty := by
  have hcontent : entries.filter Entry.isContent = [] := by
    simpa [List.filter_eq_nil_iff] using hnone
  rw [sharedSigners_eq, hcontent] at h
  cases h
  rfl

/-- Shared signers have evidence for some entry, and for every content entry the chains with
evidence have the fingerprints of the shared signers. -/
theorem evidence_of_sharedSigners {entries : List Entry} {limits : SizeLimits}
    {set : SignerSet} (h : (sharedSigners entries limits).result = .ok set) {e : Entry}
    (hmem : e ∈ entries) (hcontent : e.isContent = true) :
    (∃ source ∈ entries, ∀ c ∈ set.signers, Evidence entries c source) ∧
    (∀ c ∈ set.signers, ∃ d, Evidence entries d e ∧ d.fingerprint = c.fingerprint) ∧
    ∀ c, Evidence entries c e → ∃ d ∈ set.signers, d.fingerprint = c.fingerprint := by
  obtain ⟨hsource, hall⟩ := sharedSigners_eq_ok h
  obtain ⟨checked, hanswer, hprints⟩ := hall e hmem hcontent
  have hsigners := mem_signers_answerTo_iff hanswer
  refine ⟨?_, ?_, ?_⟩
  · rcases hsource with rfl | ⟨source, hsource, first, hfirst, rfl⟩
    · exact ⟨e, hmem, fun c hc => absurd hc List.not_mem_nil⟩
    · have hkept := (SignerSet.signers_ofList_sublist first.signers).subset
      exact ⟨source, hsource, fun c hc => (mem_signers_answerTo_iff hfirst c).1 (hkept hc)⟩
  · intro c hc
    obtain ⟨d, hd, hprint⟩ :=
      List.mem_map.1 ((hprints c.fingerprint).1 (List.mem_map_of_mem hc))
    exact ⟨d, (hsigners d).1 hd, hprint⟩
  · intro c hc
    exact List.mem_map.1
      ((hprints c.fingerprint).2 (List.mem_map_of_mem ((hsigners c).2 hc)))

/-- Shared signers are presented by the blocks of the archive. -/
theorem mem_presentedChains_of_sharedSigners {entries : List Entry} {limits : SizeLimits}
    {set : SignerSet} (h : (sharedSigners entries limits).result = .ok set) {c : Chain}
    (hc : c ∈ set.signers) : c ∈ presentedChains entries := by
  by_cases hnone : ∀ e ∈ entries, e.isContent = false
  · rw [sharedSigners_eq_empty h hnone] at hc
    exact absurd hc List.not_mem_nil
  · simp only [not_forall, Bool.not_eq_false] at hnone
    obtain ⟨e, hmem, hcontent⟩ := hnone
    obtain ⟨⟨source, _, hsource⟩, _⟩ := evidence_of_sharedSigners h hmem hcontent
    exact (hsource c hc).mem_presentedChains

/-- The shared signers of an archive are exactly those who signed its content. Whenever they can
be told, under whatever limits: there are none if there is no content; a chain among them and a
content entry always come with evidence, and evidence for any content entry makes a signer, up
to chains of one fingerprint; and so, if no two chains of the archive share a fingerprint, the
chains among the shared signers are for each content entry those with evidence. -/
theorem shared_signers_are_those_with_evidence {entries : List Entry} {limits : SizeLimits}
    {set : SignerSet} (h : (sharedSigners entries limits).result = .ok set) :
    ((∀ e ∈ entries, e.isContent = false) → set.signers = []) ∧
    (∀ e ∈ entries, e.isContent = true → ∀ print,
      (∃ c ∈ set.signers, c.fingerprint = print) ↔
        ∃ c, Evidence entries c e ∧ c.fingerprint = print) ∧
    (FingerprintsDistinct entries → ∀ c, ∀ e ∈ entries, e.isContent = true →
      (c ∈ set.signers ↔ Evidence entries c e)) := by
  refine ⟨?_, ?_, ?_⟩
  · intro hnone
    rw [sharedSigners_eq_empty h hnone]
    rfl
  · intro e he hcontent print
    obtain ⟨_, hsound, hcomplete⟩ := evidence_of_sharedSigners h he hcontent
    constructor
    · rintro ⟨c, hc, rfl⟩
      exact hsound c hc
    · rintro ⟨c, hc, rfl⟩
      exact hcomplete c hc
  · intro hdistinct c e he hcontent
    obtain ⟨⟨source, _, hsource⟩, hsound, hcomplete⟩ := evidence_of_sharedSigners h he hcontent
    constructor
    · intro hc
      obtain ⟨d, hd, hprint⟩ := hsound c hc
      have heq : d = c :=
        hdistinct d hd.mem_presentedChains c (hsource c hc).mem_presentedChains hprint
      exact heq ▸ hd
    · intro hc
      obtain ⟨d, hd, hprint⟩ := hcomplete c hc
      have heq : d = c :=
        hdistinct d (hsource d hd).mem_presentedChains c hc.mem_presentedChains hprint
      exact heq ▸ hd

theorem presentedChains_signedArchive :
    presentedChains signedArchive = [⟨archiveSigner.certificate, []⟩] := by
  have hchains := (PairedBlock.chains?_names?_of_signed signed_archiveBlock).1
  rw [presentedChains, pairedBlocks_signedArchive, List.flatMap_singleton, hchains]
  rfl

/-- There is evidence for the signer of the signed archive. -/
theorem signedArchive_has_evidence :
    (sharedSigners signedArchive .none).result =
      .ok (.ofList [⟨archiveSigner.certificate, []⟩]) ∧
    FingerprintsDistinct signedArchive ∧
    ∀ c, Evidence signedArchive c ⟨"a", .octets (Bytes.ofAscii "a") true⟩ ↔
      c = ⟨archiveSigner.certificate, []⟩ := by
  have hdistinct : FingerprintsDistinct signedArchive := by
    unfold FingerprintsDistinct
    rw [presentedChains_signedArchive]
    simp
  obtain ⟨_, _, hiff⟩ := shared_signers_are_those_with_evidence sharedSigners_signedArchive
  refine ⟨sharedSigners_signedArchive, hdistinct, fun c => ?_⟩
  have hcontent : ⟨"a", .octets (Bytes.ofAscii "a") true⟩ ∈ signedArchive := by
    simp [signedArchive]
  rw [← hiff hdistinct c _ hcontent (by decide +kernel)]
  have hone : (SignerSet.ofList [⟨archiveSigner.certificate, []⟩]).signers =
      [⟨archiveSigner.certificate, []⟩] := rfl
  rw [hone, List.mem_singleton]

end JarSigners
