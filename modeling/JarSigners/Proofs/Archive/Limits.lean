import JarSigners.Proofs.Archive.Answers

/-!
# What limits change

A limit makes a read fail as too large if an entry is beyond it, and changes nothing else. Said
of two results, one under limits and one under looser ones: the first is the second, unless it is
cut short by an entry that really is too large (`CutShort`). Reading a metadata entry and
checking a content entry have this property, and steps one after the other keep it, so a whole
read has it (`read_cutShort`). It fails for the largest limit of all, under which metadata
reads as empty. The octets of a metadata entry count only if all of them could be read: loading
comes out the same on archives whose metadata entries read the same
(`verifySignatures_of_readsAlike`).
-/

set_option autoImplicit false

namespace JarSigners

/-! ### Looser limits -/

/-- A limit is no looser than another one; zero is no limit. -/
def LimitWithin (limit looser : UInt64) : Prop :=
  looser = 0 ∨ limit ≠ 0 ∧ limit ≤ looser

theorem Admits.loosen {limit looser : UInt64} {size : Nat} (h : Admits limit size)
    (hwithin : LimitWithin limit looser) : Admits looser size := by
  rcases hwithin with hzero | ⟨hne, hle⟩
  · exact Or.inl hzero
  · rcases h with hzero | hsize
    · exact absurd hzero hne
    · exact Or.inr (Nat.le_trans hsize (UInt64.le_iff_toNat_le.1 hle))

/-- Both limits are no looser than others. -/
structure SizeLimits.Within (limits looser : SizeLimits) : Prop where
  entry : LimitWithin limits.entry looser.entry
  metadata : LimitWithin limits.metadata looser.metadata

theorem SizeLimits.within_none (limits : SizeLimits) : limits.Within .none where
  entry := Or.inl rfl
  metadata := Or.inl rfl

/-- The payload of an entry is beyond a limit. -/
def Entry.Exceeds (e : Entry) (limit : UInt64) : Prop :=
  match e.payload with
  | .locked => False
  | .octets content _ => ¬ Admits limit content.length

instance : (e : Entry) → (limit : UInt64) → Decidable (e.Exceeds limit)
  | ⟨_, .locked⟩, _ => inferInstanceAs (Decidable False)
  | ⟨_, .octets content _⟩, limit => inferInstanceAs (Decidable (¬ Admits limit content.length))

theorem Entry.exceeds_octets {e : Entry} {content : Bytes} {intact : Bool} {limit : UInt64}
    (hpayload : e.payload = .octets content intact) :
    e.Exceeds limit ↔ ¬ Admits limit content.length := by
  rw [Exceeds, hpayload]

/-! ### Results cut short -/

/-- A result is a certain one, unless it is a failure of a kind that excuses the difference. -/
def CutShort {α : Type} (excuse : ReadError → Prop) (result whole : Except ReadError α) : Prop :=
  result = whole ∨ ∃ failure, excuse failure ∧ result = .error failure

namespace CutShort

variable {α β : Type} {excuse : ReadError → Prop} {result whole : Except ReadError α}

theorem refl (result : Except ReadError α) : CutShort excuse result result :=
  Or.inl rfl

theorem mono {weaker : ReadError → Prop} (h : CutShort excuse result whole)
    (hexcuse : ∀ failure, excuse failure → weaker failure) : CutShort weaker result whole := by
  rcases h with heq | ⟨failure, hfailure, heq⟩
  · exact Or.inl heq
  · exact Or.inr ⟨failure, hexcuse failure hfailure, heq⟩

/-- Two steps are cut short if the first is, or if the second is after the first. -/
theorem bind {next next' : α → Except ReadError β} (h : CutShort excuse result whole)
    (hnext : ∀ a, CutShort excuse (next a) (next' a)) :
    CutShort excuse (result >>= next) (whole >>= next') := by
  rcases h with rfl | ⟨failure, hfailure, rfl⟩
  · cases result with
    | error e => exact refl _
    | ok a => exact hnext a
  · exact Or.inr ⟨failure, hfailure, rfl⟩

theorem map (h : CutShort excuse result whole) (f : α → β) :
    CutShort excuse (result.map f) (whole.map f) := by
  rcases h with rfl | ⟨failure, hfailure, rfl⟩
  · exact refl _
  · exact Or.inr ⟨failure, hfailure, rfl⟩

/-- Steps over a list are cut short if the step of a member is. -/
theorem mapM {f g : α → Except ReadError β} {xs : List α}
    (h : ∀ x ∈ xs, CutShort excuse (f x) (g x)) :
    CutShort excuse (xs.mapM f) (xs.mapM g) := by
  induction xs with
  | nil => exact refl _
  | cons x xs ih =>
    rw [List.forall_mem_cons] at h
    rw [List.mapM_cons, List.mapM_cons]
    exact h.1.bind fun y => (ih h.2).bind fun ys => refl _

end CutShort

/-! ### Reading under a limit and a looser one -/

/-- Some entry of the archive is reported as beyond the metadata limit, and it is. -/
def MetadataTooLarge (entries : List Entry) (limit : UInt64) (failure : ReadError) : Prop :=
  ∃ e ∈ entries, e.Exceeds limit ∧ failure = .tooLarge e.name limit

/-- An entry is reported as beyond the content limit, and it is. -/
def ContentTooLarge (e : Entry) (limit : UInt64) (failure : ReadError) : Prop :=
  e.Exceeds limit ∧ failure = .tooLarge e.name limit

section Reading

variable {entries : List Entry} {limit looser : UInt64}

theorem Entry.check_cutShort {e : Entry} (hwithin : LimitWithin limit looser)
    (expected : List ExpectedDigest) :
    CutShort (ContentTooLarge e limit) (e.check limit expected) (e.check looser expected) := by
  cases hpayload : e.payload with
  | locked =>
    rw [check, check, hpayload]
    exact .refl _
  | octets content intact =>
    rw [check_octets limit expected hpayload, check_octets looser expected hpayload]
    by_cases hfits : Admits limit content.length
    · rw [if_pos hfits, if_pos (hfits.loosen hwithin)]
      exact .refl _
    · rw [if_neg hfits]
      exact Or.inr ⟨_, ⟨(exceeds_octets hpayload).2 hfits, rfl⟩, rfl⟩

section Metadata

variable (hwithin : LimitWithin limit looser) (hlimit : limit ≠ wrappingLimit)
  (hlooser : looser ≠ wrappingLimit)

include hwithin hlimit hlooser

theorem Entry.metadataOctets_cutShort {e : Entry} (hmem : e ∈ entries) :
    CutShort (MetadataTooLarge entries limit) (e.metadataOctets limit)
      (e.metadataOctets looser) := by
  cases hpayload : e.payload with
  | locked =>
    rw [metadataOctets, metadataOctets, hpayload]
    exact .refl _
  | octets content intact =>
    rw [metadataOctets_octets hlimit hpayload, metadataOctets_octets hlooser hpayload]
    by_cases hfits : Admits limit content.length
    · rw [if_pos hfits, if_pos (hfits.loosen hwithin)]
      exact .refl _
    · rw [if_neg hfits]
      exact Or.inr ⟨_, ⟨e, hmem, (exceeds_octets hpayload).2 hfits, rfl⟩, rfl⟩

theorem readManifest_cutShort {e : Entry} (hmem : e ∈ entries) :
    CutShort (MetadataTooLarge entries limit) (readManifest limit e) (readManifest looser e) :=
  (Entry.metadataOctets_cutShort hwithin hlimit hlooser hmem).bind fun _ => .refl _

theorem PairedBlock.signed_cutShort (m : Manifest) {p : PairedBlock} (hblock : p.block ∈ entries)
    (hfile : p.signatureFile ∈ entries) :
    CutShort (MetadataTooLarge entries limit) (p.signed limit m) (p.signed looser m) := by
  have hverified : CutShort (MetadataTooLarge entries limit) (p.verified limit)
      (p.verified looser) := by
    refine (Entry.metadataOctets_cutShort hwithin hlimit hlooser hfile).bind fun bytes => ?_
    refine (CutShort.refl _).bind fun file => ?_
    exact (Entry.metadataOctets_cutShort hwithin hlimit hlooser hblock).bind fun _ => .refl _
  exact hverified.bind fun _ => .refl _

theorem verifyBlocks_cutShort (m : Manifest) {blocks : List PairedBlock}
    (hblocks : ∀ p ∈ blocks, p.block ∈ entries ∧ p.signatureFile ∈ entries) :
    CutShort (MetadataTooLarge entries limit) (verifyBlocks limit m blocks)
      (verifyBlocks looser m blocks) := by
  rw [verifyBlocks_eq, verifyBlocks_eq]
  refine CutShort.map (CutShort.mapM fun p hp => ?_) _
  exact PairedBlock.signed_cutShort hwithin hlimit hlooser m (hblocks p hp).1 (hblocks p hp).2

theorem verifySignatures_cutShort :
    CutShort (MetadataTooLarge entries limit) (verifySignatures entries limit)
      (verifySignatures entries looser) := by
  by_cases hnothing : pairedBlocks entries = [] ∨ entryNamed? entries EntryName.manifest = none
  · rw [verifySignatures_eq_none limit hnothing, verifySignatures_eq_none looser hnothing]
    exact .refl _
  · obtain ⟨hpaired, hsome⟩ := not_or.1 hnothing
    obtain ⟨manifest, hmanifest⟩ := Option.ne_none_iff_exists'.1 hsome
    rw [verifySignatures_eq_bind hmanifest hpaired, verifySignatures_eq_bind hmanifest hpaired]
    have hmem : manifest ∈ entries := List.mem_of_find?_eq_some hmanifest
    refine (readManifest_cutShort hwithin hlimit hlooser hmem).bind fun m => ?_
    exact verifyBlocks_cutShort hwithin hlimit hlooser m fun p hp => mem_of_mem_pairedBlocks hp

end Metadata

/-- An answer is cut short by metadata beyond the one limit or by the entry beyond the other. -/
theorem answerTo_cutShort {limits looser : SizeLimits} (hwithin : limits.Within looser)
    (hlimit : limits.metadata ≠ wrappingLimit) (hlooser : looser.metadata ≠ wrappingLimit)
    (e : Entry) :
    CutShort
      (fun failure => MetadataTooLarge entries limits.metadata failure ∨
        ContentTooLarge e limits.entry failure)
      (answerTo entries limits e) (answerTo entries looser e) := by
  have hload : CutShort (MetadataTooLarge entries limits.metadata)
      (verifySignatures entries limits.metadata) (verifySignatures entries looser.metadata) :=
    verifySignatures_cutShort hwithin.metadata hlimit hlooser
  refine (hload.mono fun _ => Or.inl).bind fun s => ?_
  exact ((e.check_cutShort hwithin.entry _).mono fun _ => Or.inr).map _

/-- A read of a fresh archive is the one under looser limits, unless metadata or the entry at the
index is too large. -/
theorem read_cutShort {limits looser : SizeLimits} (hwithin : limits.Within looser)
    (hlimit : limits.metadata ≠ wrappingLimit) (hlooser : looser.metadata ≠ wrappingLimit)
    (i : Nat) :
    CutShort
      (fun failure => MetadataTooLarge entries limits.metadata failure ∨
        ∃ e, entries[i]? = some e ∧ ContentTooLarge e limits.entry failure)
      (((SignedArchive.opened entries).limitedTo limits).read i).result
      (((SignedArchive.opened entries).limitedTo looser).read i).result := by
  rw [read_fresh_result, read_fresh_result]
  cases entries[i]? with
  | none => exact .refl _
  | some e =>
    refine (answerTo_cutShort hwithin hlimit hlooser e).mono fun failure hfailure => ?_
    exact hfailure.imp_right fun hcontent => ⟨e, rfl, hcontent⟩

/-- A read that succeeds has taken all of an intact payload within the limit. -/
theorem payload_of_read {limits : SizeLimits} {i : Nat} {checked : CheckedEntry}
    (h : (((SignedArchive.opened entries).limitedTo limits).read i).result = .ok checked) :
    ∃ e content, entries[i]? = some e ∧ e.payload = .octets content true ∧
      Admits limits.entry content.length ∧ checked.size = content.length := by
  rw [read_fresh_result] at h
  cases hentry : entries[i]? with
  | none =>
    rw [hentry] at h
    cases h
  | some e =>
    rw [hentry] at h
    obtain ⟨s, _, hcheck⟩ := answerTo_eq_ok_iff.1 h
    obtain ⟨size, hsize, rfl⟩ := Steps.map_eq_ok_iff.1 hcheck
    obtain ⟨content, hpayload, hfits, _, rfl⟩ := Entry.check_eq_ok_iff.1 hsize
    exact ⟨e, content, rfl, hpayload, hfits, rfl⟩

end Reading

/-! ### What loading takes from an entry -/

/-- Two entries of one name from which loading gets the same octets, or the same failure. -/
structure ReadsAlike (limit : UInt64) (a b : Entry) : Prop where
  name : a.name = b.name
  octets : a.metadataOctets limit = b.metadataOctets limit

section ReadsAlike

variable {limit : UInt64} {entries others : List Entry}

/-- A lookup finds entries that read alike in archives that do. -/
theorem entryNamed?_of_readsAlike (h : List.Forall₂ (ReadsAlike limit) entries others)
    (name : String) :
    Option.Rel (ReadsAlike limit) (entryNamed? entries name) (entryNamed? others name) := by
  unfold entryNamed?
  induction h with
  | nil => exact .none
  | cons hhead _ ih =>
    rw [List.find?_cons, List.find?_cons, ← hhead.name]
    split
    · exact .some hhead
    · exact ih

/-- Two pairs whose blocks and signature files read alike. -/
structure PairedBlock.ReadsAlike (limit : UInt64) (p q : PairedBlock) : Prop where
  block : JarSigners.ReadsAlike limit p.block q.block
  signatureFile : JarSigners.ReadsAlike limit p.signatureFile q.signatureFile

theorem pair?_of_readsAlike (h : List.Forall₂ (ReadsAlike limit) entries others) {a b : Entry}
    (hab : ReadsAlike limit a b) :
    Option.Rel (PairedBlock.ReadsAlike limit) (pair? entries a) (pair? others b) := by
  rw [pair?, pair?, signatureFileBeside?, signatureFileBeside?, ← hab.name]
  split
  · cases EntryName.signatureFileOf? a.name with
    | none => exact .none
    | some file =>
      have hfound := entryNamed?_of_readsAlike h file
      rw [Option.bind_some, Option.bind_some]
      generalize entryNamed? entries file = found at hfound ⊢
      generalize entryNamed? others file = found' at hfound ⊢
      cases hfound with
      | none => exact .none
      | some hfile => exact .some ⟨hab, hfile⟩
  · exact .none

theorem pairedBlocks_of_readsAlike (h : List.Forall₂ (ReadsAlike limit) entries others) :
    List.Forall₂ (PairedBlock.ReadsAlike limit) (pairedBlocks entries) (pairedBlocks others) := by
  rw [pairedBlocks_eq_filterMap, pairedBlocks_eq_filterMap]
  have hpair : ∀ {a b : Entry}, ReadsAlike limit a b →
      Option.Rel (PairedBlock.ReadsAlike limit) (pair? entries a) (pair? others b) :=
    pair?_of_readsAlike h
  -- The archives stay what they are while the lists get shorter.
  generalize pair? entries = f at hpair ⊢
  generalize pair? others = g at hpair ⊢
  induction h with
  | nil => exact .nil
  | @cons a b _ _ hhead _ ih =>
    have hfirst := hpair hhead
    rw [List.filterMap_cons, List.filterMap_cons]
    generalize f a = first at hfirst ⊢
    generalize g b = first' at hfirst ⊢
    cases hfirst with
    | none => exact ih
    | some hp => exact .cons hp ih

theorem PairedBlock.ReadsAlike.signed_eq {p q : PairedBlock} (h : p.ReadsAlike limit q)
    (m : Manifest) : p.signed limit m = q.signed limit m := by
  simp only [signed, verified, h.block.name, h.block.octets, h.signatureFile.name,
    h.signatureFile.octets]

theorem ReadsAlike.readManifest_eq {a b : Entry} (h : ReadsAlike limit a b) :
    readManifest limit a = readManifest limit b := by
  rw [readManifest, readManifest, h.name, h.octets]

/-- Loading takes nothing from an archive but names and what reads of metadata deliver. -/
theorem verifySignatures_of_readsAlike (h : List.Forall₂ (ReadsAlike limit) entries others) :
    verifySignatures others limit = verifySignatures entries limit := by
  have hpairs := pairedBlocks_of_readsAlike h
  have hblocks : ∀ m, verifyBlocks limit m (pairedBlocks others) =
      verifyBlocks limit m (pairedBlocks entries) := by
    intro m
    rw [verifyBlocks_eq, verifyBlocks_eq,
      Steps.mapM_eq_of_forall₂ (hpairs.imp fun _ _ hpq => hpq.signed_eq m)]
  have hfound := entryNamed?_of_readsAlike h EntryName.manifest
  unfold verifySignatures
  generalize entryNamed? entries EntryName.manifest = found at hfound ⊢
  generalize entryNamed? others EntryName.manifest = found' at hfound ⊢
  generalize pairedBlocks entries = pairs at hpairs hblocks ⊢
  generalize pairedBlocks others = pairs' at hpairs hblocks ⊢
  cases hfound with
  | none => cases hpairs <;> rfl
  | some hmanifest =>
    cases hpairs with
    | nil => rfl
    | cons _ _ => simp only [hmanifest.readManifest_eq, hblocks]

end ReadsAlike

/-- A limit only ever makes a read fail as too large. A read of a fresh archive under limits
either answers as it would without any, or with the failure that an entry is too large, which
then is beyond the limit that is reported. An answer that is no such failure stays the same under
all looser limits, zero being the loosest. Nothing that is cut off passes for the whole: a read
that succeeds has taken all of an intact payload, the octets of a metadata entry come from an
intact payload that is within the limit, and loading takes nothing else from a metadata entry
than these octets or the failure to get them. The one limit for which this is not so is the
largest of all for metadata. -/
theorem limits_only_cut_short (entries : List Entry) (i : Nat) {limits : SizeLimits}
    (hlimits : limits.metadata ≠ wrappingLimit) :
    let answer := fun limits : SizeLimits =>
      (((SignedArchive.opened entries).limitedTo limits).read i).result
    (answer limits = answer .none ∨
      (∃ e ∈ entries, e.Exceeds limits.metadata ∧
        answer limits = .error (.tooLarge e.name limits.metadata)) ∨
      (∃ e, entries[i]? = some e ∧ e.Exceeds limits.entry ∧
        answer limits = .error (.tooLarge e.name limits.entry))) ∧
    ((∀ name limit, answer limits ≠ .error (.tooLarge name limit)) →
      ∀ looser, limits.Within looser → looser.metadata ≠ wrappingLimit →
        answer looser = answer limits) ∧
    (∀ checked, answer limits = .ok checked →
      ∃ e content, entries[i]? = some e ∧ e.payload = .octets content true ∧
        Admits limits.entry content.length ∧ checked.size = content.length) ∧
    (∀ (e : Entry) bytes, e.metadataOctets limits.metadata = .ok bytes ↔
      e.payload = .octets bytes true ∧ Admits limits.metadata bytes.length) ∧
    (∀ others, List.Forall₂ (ReadsAlike limits.metadata) entries others →
      verifySignatures others limits.metadata = verifySignatures entries limits.metadata) := by
  intro answer
  have hcut : ∀ looser : SizeLimits, limits.Within looser → looser.metadata ≠ wrappingLimit →
      answer limits = answer looser ∨
        (∃ e ∈ entries, e.Exceeds limits.metadata ∧
          answer limits = .error (.tooLarge e.name limits.metadata)) ∨
        (∃ e, entries[i]? = some e ∧ e.Exceeds limits.entry ∧
          answer limits = .error (.tooLarge e.name limits.entry)) := by
    intro looser hwithin hlooser
    rcases read_cutShort hwithin hlimits hlooser i with heq | ⟨_, hmetadata | hcontent, heq⟩
    · exact Or.inl heq
    · obtain ⟨e, hmem, hexceeds, rfl⟩ := hmetadata
      exact Or.inr (Or.inl ⟨e, hmem, hexceeds, heq⟩)
    · obtain ⟨e, hentry, hexceeds, rfl⟩ := hcontent
      exact Or.inr (Or.inr ⟨e, hentry, hexceeds, heq⟩)
  refine ⟨?_, ?_, ?_, ?_, ?_⟩
  · exact hcut .none limits.within_none (by decide)
  · intro hfits looser hwithin hlooser
    rcases hcut looser hwithin hlooser with heq | ⟨e, _, _, heq⟩ | ⟨e, _, _, heq⟩
    · exact heq.symm
    · exact absurd heq (hfits _ _)
    · exact absurd heq (hfits _ _)
  · exact fun checked hread => payload_of_read hread
  · exact fun e bytes => Entry.metadataOctets_eq_ok_iff hlimits
  · exact fun others h => verifySignatures_of_readsAlike h

/-- Under limits that all its entries are within, the signed archive is read as without. -/
theorem signedArchive_within_limits :
    (((SignedArchive.opened signedArchive).limitedTo ⟨1, 4096⟩).read 3).result =
      .ok ⟨"a", 1, [⟨archiveSigner.certificate, []⟩]⟩ := by
  have hwhole : (((SignedArchive.opened signedArchive).limitedTo .none).read 3).result =
      .ok ⟨"a", 1, [⟨archiveSigner.certificate, []⟩]⟩ :=
    (read_fresh_eq_answerTo rfl .none).trans answerTo_signedArchive
  have hlimits : (SizeLimits.mk 1 4096).metadata ≠ wrappingLimit := by decide
  have hmetadata : ∀ e ∈ signedArchive, ¬ e.Exceeds 4096 := by decide +kernel
  have hcontent : ¬ signedFile.Exceeds 1 := by decide
  obtain ⟨hanswer, _⟩ := limits_only_cut_short signedArchive 3 hlimits
  rcases hanswer with heq | ⟨e, hmem, hexceeds, _⟩ | ⟨e, hentry, hexceeds, _⟩
  · exact heq.trans hwhole
  · exact absurd hexceeds (hmetadata e hmem)
  · cases hentry
    exact absurd hexceeds hcontent

/-! ### The whole range of limits -/

/-- One more than a limit is one more unless the limit is the largest, where it is zero. -/
theorem toNat_add_one_eq_iff (limit : UInt64) :
    (limit + 1).toNat = limit.toNat + 1 ↔ limit ≠ wrappingLimit := by
  constructor
  · rintro hnext rfl
    have hwrapped : (wrappingLimit + 1).toNat = 0 := rfl
    omega
  · exact toNat_add_one

/-- What a metadata entry reads as, for any limit at all. If its payload is intact the entry reads
as all of it, if there is no limit or the limit is no less than its length, and else as too large
for that limit. The one exception is the largest limit: the octet that would be beyond it is
counted as number zero, so that nothing is read and every payload reads as an empty one. -/
theorem metadata_limit_is_compared_but_the_largest (name : String) (content : Bytes)
    (limit : UInt64) :
    let e : Entry := ⟨name, .octets content true⟩
    (e.metadataOctets limit =
      if limit = wrappingLimit then .ok []
      else if limit = 0 ∨ content.length ≤ limit.toNat then .ok content
      else .error (.tooLarge name limit)) ∧
    ((limit + 1).toNat = limit.toNat + 1 ↔ limit ≠ wrappingLimit) ∧
    (e.metadataOctets limit = .ok [] ↔ content = [] ∨ limit = wrappingLimit) := by
  intro e
  have hread : e.metadataOctets limit =
      if limit = wrappingLimit then .ok []
      else if limit = 0 ∨ content.length ≤ limit.toNat then .ok content
      else .error (.tooLarge name limit) := by
    by_cases hlimit : limit = wrappingLimit
    · rw [if_pos hlimit, hlimit]
      have hzero : ¬ wrappingLimit = 0 := by decide
      have hwindow : (wrappingLimit + 1).toNat = 0 := rfl
      simp [Entry.metadataOctets, e, hzero, hwindow]
    · rw [if_neg hlimit, Entry.metadataOctets_octets hlimit rfl]
      rfl
  refine ⟨hread, toNat_add_one_eq_iff limit, ?_⟩
  rw [hread]
  by_cases hlimit : limit = wrappingLimit
  · simp [hlimit]
  · by_cases hfits : limit = 0 ∨ content.length ≤ limit.toNat
    · simp [hlimit, hfits]
    · have hsome : content ≠ [] := by
        rintro rfl
        exact hfits (Or.inr (Nat.zero_le _))
      simp [hlimit, hfits, hsome]

/-- Under the largest limit the signed archive is taken for one whose metadata entries are empty,
and reads as damaged, although each of them is within that limit. -/
theorem largest_metadata_limit_reads_nothing :
    (∀ e ∈ signedArchive, ¬ e.Exceeds wrappingLimit) ∧
    (Entry.mk "META-INF/MANIFEST.MF" (.octets archiveManifest.bytes true)).metadataOctets
      wrappingLimit ≠ .ok archiveManifest.bytes ∧
    (((SignedArchive.opened signedArchive).limitedTo .none).read 3).result =
      .ok ⟨"a", 1, [⟨archiveSigner.certificate, []⟩]⟩ ∧
    (((SignedArchive.opened signedArchive).limitedTo ⟨0, wrappingLimit⟩).read 3).result =
      .error (.untrusted (.invalidBlock "META-INF/A.RSA" .notSignedMessage)) := by
  refine ⟨by decide +kernel, by decide +kernel, ?_, by decide +kernel⟩
  exact (read_fresh_eq_answerTo rfl .none).trans answerTo_signedArchive

end JarSigners
