import JarSigners.Proofs.Signers.Evidence

/-!
# What the shared signers do not depend on

An entry that is no content and plays no part in the signatures changes nothing about the shared
signers, wherever it stands and whatever reading it would deliver (`sharedSigners_insert`). The
order of the entries changes nothing about whether there are shared signers and who they are, as
long as no two names are alike: each entry gets an answer with the same signers in perhaps
another order (`answerTo_perm`), and the comparison goes by fingerprints.
-/

set_option autoImplicit false

namespace JarSigners

/-! ### Entries that do not matter -/

/-- An entry that is no content and not involved changes nothing. -/
theorem sharedSigners_insert {before after : List Entry} {e : Entry}
    (hcontent : e.isContent = false) (he : Uninvolved (before ++ after) e) (limits : SizeLimits) :
    (sharedSigners (before ++ e :: after) limits).result =
      (sharedSigners (before ++ after) limits).result := by
  have hanswers : answerTo (before ++ e :: after) limits = answerTo (before ++ after) limits :=
    funext (answerTo_congr (verifySignatures_insert he limits.metadata))
  have hsame : (before ++ e :: after).filter Entry.isContent =
      (before ++ after).filter Entry.isContent := by
    simp [hcontent]
  rw [sharedSigners_eq, sharedSigners_eq, hanswers, hsame]

/-- An entry with no part in anything has no influence on the shared signers: not on who they
are, not on their order, not on the failure if there is one. It may be a directory of any name;
or an entry of the metadata directory that is no manifest, no block whose signature file the
archive has, and no signature file of a block of the archive. It may stand anywhere, and its
payload may be damaged or such as cannot be opened. -/
theorem irrelevant_entry_has_no_influence {before after : List Entry} {extra : Entry}
    (hextra : extra.isDirectory = true ∨
      (extra.isMetadata = true ∧
        Text.alike extra.name EntryName.manifest = false ∧
        (EntryName.isBlock extra.name = true →
          signatureFileBeside? (before ++ after) extra = none) ∧
        ∀ block ∈ signatureBlocks (before ++ after), ∀ file,
          EntryName.signatureFileOf? block.name = some file →
            Text.alike extra.name file = false))
    (limits : SizeLimits) :
    (sharedSigners (before ++ extra :: after) limits).result =
      (sharedSigners (before ++ after) limits).result := by
  rcases hextra with hdirectory | ⟨hmetadata, hmanifest, hblock, hfile⟩
  · have hcontent : extra.isContent = false := by simp [Entry.isContent, hdirectory]
    exact sharedSigners_insert hcontent (uninvolved_of_isDirectory hdirectory) limits
  · have hcontent : extra.isContent = false := by simp [Entry.isContent, hmetadata]
    exact sharedSigners_insert hcontent ⟨hmanifest, hblock, hfile⟩ limits

/-- A block without a signature file. It cannot even be opened. -/
def orphanBlock : Entry := ⟨"META-INF/B.RSA", .locked⟩

/-- The orphan changes nothing in front of the signed archive. -/
theorem orphanBlock_has_no_influence :
    (sharedSigners (orphanBlock :: signedArchive) .none).result =
      .ok (.ofList [⟨archiveSigner.certificate, []⟩]) := by
  rw [← sharedSigners_signedArchive]
  have horphan : signatureFileBeside? ([] ++ signedArchive) orphanBlock = none := by
    decide
  refine irrelevant_entry_has_no_influence (Or.inr ⟨?_, ?_, fun _ => horphan, ?_⟩) .none
  · decide
  · decide
  · intro block _ file hfile
    exact EntryName.not_alike_of_isBlock (by decide) hfile

/-! ### Entries in another order -/

section Perm

variable {entries permuted : List Entry}

theorem manifest?_perm (hdistinct : NamesDistinct entries) (hperm : entries.Perm permuted) :
    manifest? permuted = manifest? entries := by
  rw [manifest?, manifest?, entryNamed?_perm hdistinct hperm]

theorem statedDigests_perm (hdistinct : NamesDistinct entries) (hperm : entries.Perm permuted)
    (name : String) : statedDigests permuted name = statedDigests entries name := by
  rw [statedDigests, statedDigests, manifest?_perm hdistinct hperm]

/-- The same chains sign a name, in perhaps another order. -/
theorem mem_coveringSigners_perm (hdistinct : NamesDistinct entries)
    (hperm : entries.Perm permuted) (name : String) (c : Chain) :
    c ∈ coveringSigners permuted name ↔ c ∈ coveringSigners entries name := by
  simp only [mem_coveringSigners_iff, manifest?_perm hdistinct hperm,
    (pairedBlocks_perm hdistinct hperm).mem_iff]

/-- Signatures that load, load from entries in another order. -/
theorem verifySignatures_perm (hdistinct : NamesDistinct entries)
    (hperm : entries.Perm permuted) {limit : UInt64}
    (hload : ∃ s, verifySignatures entries limit = .ok s) :
    ∃ s, verifySignatures permuted limit = .ok s := by
  have hpairs := pairedBlocks_perm hdistinct hperm
  have hlookup := entryNamed?_perm hdistinct hperm EntryName.manifest
  by_cases hnothing : pairedBlocks entries = [] ∨ entryNamed? entries EntryName.manifest = none
  · have hnothing' : pairedBlocks permuted = [] ∨
        entryNamed? permuted EntryName.manifest = none := by
      rcases hnothing with hnil | hnone
      · rw [hnil] at hpairs
        exact Or.inl (List.perm_nil.1 hpairs)
      · exact Or.inr (hlookup.trans hnone)
    exact ⟨_, verifySignatures_eq_none limit hnothing'⟩
  · obtain ⟨hpaired, hsome⟩ := not_or.1 hnothing
    obtain ⟨manifest, hmanifest⟩ := Option.ne_none_iff_exists'.1 hsome
    have hpaired' : pairedBlocks permuted ≠ [] := by
      intro hnil
      rw [hnil] at hpairs
      exact hpaired (List.nil_perm.1 hpairs)
    obtain ⟨m, hm, hblocks⟩ :=
      (exists_verifySignatures_eq_ok_iff hmanifest hpaired limit).1 hload
    rw [exists_verifySignatures_eq_ok_iff (hlookup.trans hmanifest) hpaired']
    exact ⟨m, hm, fun p hp => hblocks p (hpairs.mem_iff.1 hp)⟩

/-- An entry that is answered for is answered for with the same signers, in perhaps another
order. -/
theorem answerTo_perm (hdistinct : NamesDistinct entries) (hperm : entries.Perm permuted)
    {limits : SizeLimits} {e : Entry} {checked : CheckedEntry}
    (h : answerTo entries limits e = .ok checked) :
    ∃ other, answerTo permuted limits e = .ok other ∧
      ∀ c, c ∈ other.signers ↔ c ∈ checked.signers := by
  obtain ⟨s, hload, hcheck⟩ := answerTo_eq_ok_iff.1 h
  obtain ⟨s', hload'⟩ := verifySignatures_perm hdistinct hperm ⟨s, hload⟩
  have hsigners := mem_coveringSigners_perm hdistinct hperm e.name
  have hnil : coveringSigners permuted e.name = [] ↔ coveringSigners entries e.name = [] := by
    simp only [List.eq_nil_iff_forall_not_mem, hsigners]
  have hexpected : s'.expectedDigests e.name = s.expectedDigests e.name := by
    rw [(loaded_of_verifySignatures hload').expectedDigests_eq,
      (loaded_of_verifySignatures hload).expectedDigests_eq, statedDigests_perm hdistinct hperm]
    simp only [hnil]
  obtain ⟨size, hsize, _⟩ := Steps.map_eq_ok_iff.1 hcheck
  have hother : answerTo permuted limits e = .ok ⟨e.name, size, s'.signersOf e.name⟩ := by
    rw [answerTo_of_load hload', Signatures.checkEntry, hexpected, hsize]
    rfl
  refine ⟨_, hother, fun c => ?_⟩
  rw [signers_of_answerTo hother, signers_of_answerTo h, statedDigests_perm hdistinct hperm]
  split
  · rfl
  · exact hsigners c

/-- Answers that agree, agree for entries in another order. -/
theorem agree_answerTo_perm (hdistinct : NamesDistinct entries) (hperm : entries.Perm permuted)
    {limits : SizeLimits} {a b : Entry}
    (h : Agree (answerTo entries limits a) (answerTo entries limits b)) :
    Agree (answerTo permuted limits a) (answerTo permuted limits b) := by
  obtain ⟨one, two, hone, htwo, hsame⟩ := h
  obtain ⟨one', hone', hmem⟩ := answerTo_perm hdistinct hperm hone
  obtain ⟨two', htwo', hmem'⟩ := answerTo_perm hdistinct hperm htwo
  rw [hone', htwo', Agree.ok_iff]
  exact (SamePrints.of_mem_iff hmem).trans (hsame.trans (SamePrints.of_mem_iff hmem').symm)

/-- If there are shared signers, there are for entries in another order. -/
theorem exists_sharedSigners_perm (hdistinct : NamesDistinct entries)
    (hperm : entries.Perm permuted) {limits : SizeLimits}
    (h : ∃ set, (sharedSigners entries limits).result = .ok set) :
    ∃ set, (sharedSigners permuted limits).result = .ok set := by
  have hmem : ∀ e, e ∈ permuted.filter Entry.isContent ↔ e ∈ entries.filter Entry.isContent :=
    fun e => (hperm.filter Entry.isContent).mem_iff.symm
  simp only [sharedSigners_eq, exists_sharedAnswers_eq_ok_iff, List.forall_mem_map, hmem] at h ⊢
  intro a ha b hb
  exact agree_answerTo_perm hdistinct hperm (h a ha b hb)

/-- Shared signers have the same fingerprints as for entries in another order. -/
theorem samePrints_sharedSigners_perm (hdistinct : NamesDistinct entries)
    (hperm : entries.Perm permuted) {limits : SizeLimits} {set other : SignerSet}
    (hset : (sharedSigners entries limits).result = .ok set)
    (hother : (sharedSigners permuted limits).result = .ok other) :
    SamePrints set.signers other.signers := by
  by_cases hnone : ∀ e ∈ entries, e.isContent = false
  · have hnone' : ∀ e ∈ permuted, e.isContent = false :=
      fun e he => hnone e (hperm.mem_iff.2 he)
    rw [sharedSigners_eq_empty hset hnone, sharedSigners_eq_empty hother hnone']
    exact .refl _
  · simp only [not_forall, Bool.not_eq_false] at hnone
    obtain ⟨e, hmem, hcontent⟩ := hnone
    obtain ⟨_, hanswer, hprints⟩ := (sharedSigners_eq_ok hset).2 e hmem hcontent
    obtain ⟨_, hanswer', hprints'⟩ :=
      (sharedSigners_eq_ok hother).2 e (hperm.mem_iff.1 hmem) hcontent
    obtain ⟨_, heq, hsigners⟩ := answerTo_perm hdistinct hperm hanswer
    cases hanswer'.symm.trans heq
    exact hprints.trans ((SamePrints.of_mem_iff hsigners).symm.trans hprints'.symm)

theorem mem_presentedChains_perm (hdistinct : NamesDistinct entries)
    (hperm : entries.Perm permuted) (c : Chain) :
    c ∈ presentedChains permuted ↔ c ∈ presentedChains entries := by
  simp only [presentedChains, List.mem_flatMap, (pairedBlocks_perm hdistinct hperm).mem_iff]

end Perm

/-- Lists without repetition of one fingerprint each are the same in perhaps another order, if
they have the same fingerprints and no two chains in them share one. -/
theorem perm_of_samePrints {a b : List Chain} (ha : (a.map Chain.fingerprint).Nodup)
    (hb : (b.map Chain.fingerprint).Nodup) (hsame : SamePrints a b)
    (hdistinct : ∀ c ∈ a, ∀ d ∈ b, c.fingerprint = d.fingerprint → c = d) : a.Perm b := by
  rw [List.perm_ext_iff_of_nodup (ha.of_map _) (hb.of_map _)]
  intro c
  constructor
  · intro hc
    obtain ⟨d, hd, hprint⟩ := List.mem_map.1 ((hsame c.fingerprint).1 (List.mem_map_of_mem hc))
    exact hdistinct c hc d hd hprint.symm ▸ hd
  · intro hc
    obtain ⟨d, hd, hprint⟩ := List.mem_map.1 ((hsame c.fingerprint).2 (List.mem_map_of_mem hc))
    exact hdistinct d hd c hc hprint ▸ hd

/-- The order of an archive does not decide the verdict. If no two names are alike, an archive
and the same entries in any other order both have shared signers or both have none, under
whatever limits. If they have, the two sets are the same: they list the same fingerprints in
perhaps another order, and if no two chains of the archive share a fingerprint, the same signers
in perhaps another order. -/
theorem verdict_does_not_depend_on_order {entries permuted : List Entry}
    (hdistinct : NamesDistinct entries) (hperm : entries.Perm permuted) (limits : SizeLimits) :
    ((∃ set, (sharedSigners entries limits).result = .ok set) ↔
      ∃ set, (sharedSigners permuted limits).result = .ok set) ∧
    ∀ set other, (sharedSigners entries limits).result = .ok set →
      (sharedSigners permuted limits).result = .ok other →
      set.same other = true ∧
        (set.signers.map Chain.fingerprint).Perm (other.signers.map Chain.fingerprint) ∧
        (FingerprintsDistinct entries → set.signers.Perm other.signers) := by
  refine ⟨⟨?_, ?_⟩, ?_⟩
  · exact exists_sharedSigners_perm hdistinct hperm
  · exact exists_sharedSigners_perm (hdistinct.perm hperm) hperm.symm
  · intro set other hset hother
    have hprints := samePrints_sharedSigners_perm hdistinct hperm hset hother
    have hcoherent := coherent_of_sharedSigners hset
    have hcoherent' := coherent_of_sharedSigners hother
    refine ⟨(hcoherent.same_iff_samePrints hcoherent').2 hprints,
      hcoherent.perm_of_samePrints hcoherent' hprints, ?_⟩
    intro hfingerprints
    refine perm_of_samePrints hcoherent.distinct hcoherent'.distinct hprints ?_
    intro c hc d hd
    have hpresented := mem_presentedChains_of_sharedSigners hother hd
    rw [mem_presentedChains_perm hdistinct hperm] at hpresented
    exact hfingerprints c (mem_presentedChains_of_sharedSigners hset hc) d hpresented

/-- The signed archive has its signer in whatever order its entries stand, here from the last to
the first. -/
theorem signedArchive_reversed :
    NamesDistinct signedArchive ∧ signedArchive.Perm signedArchive.reverse ∧
    ∃ set, (sharedSigners signedArchive.reverse .none).result = .ok set ∧
      (SignerSet.ofList [⟨archiveSigner.certificate, []⟩]).same set = true := by
  have hdistinct : NamesDistinct signedArchive := by decide
  have hperm : signedArchive.Perm signedArchive.reverse := signedArchive.reverse_perm.symm
  obtain ⟨hiff, hsets⟩ := verdict_does_not_depend_on_order hdistinct hperm .none
  obtain ⟨set, hset⟩ := hiff.1 ⟨_, sharedSigners_signedArchive⟩
  exact ⟨hdistinct, hperm, set, hset, (hsets _ _ sharedSigners_signedArchive hset).1⟩

end JarSigners
