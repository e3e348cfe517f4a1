import JarSigners.Proofs.Archive.Limits
import JarSigners.Proofs.Toml.Integers
import Mathlib.Algebra.Ring.Nat

/-!
# Accepted configurations

A configuration is refused for its limits exactly if it states a metadata limit that is looser than
its content limit. Limits are integers of a document, so they stay below two to the 63rd and never
reach the one limit under which nothing is read. Hence the limits of an accepted configuration are
consistent, be they stated or not, with zero for no limit
(`accepted_configurations_are_consistent`).
-/

set_option autoImplicit false

namespace JarSigners.Config

variable {c : Config} {text : String}

/-! ### What a text states -/

/-- The configuration that a text states, before it is checked. -/
def stated? (text : String) : Option Config :=
  (Toml.read? text).bind ofEntries?

/-- All limits are below two to the 63rd, as integers of a document are. -/
structure Small (c : Config) : Prop where
  entry : c.entryLimit.toNat < 2 ^ 63
  metadata : ∀ limit, c.metadataLimit? = some limit → limit.toNat < 2 ^ 63

theorem small_default : default.Small where
  entry := by decide
  metadata := by
    intro limit h
    cases h

theorem toNat_size?_lt {value : Toml.Value} {limit : UInt64} (hvalue : value.Bounded)
    (h : size? value = some limit) : limit.toNat < 2 ^ 63 := by
  cases hvalue with
  | @integer n hbits =>
    simp only [size?] at h
    split at h
    next hnonnegative =>
      cases h
      simp only [Toml.inInt64, Bool.and_eq_true, decide_eq_true_eq] at hbits
      have hlt : n.toNat < 2 ^ 63 := by omega
      rw [Nat.toUInt64_eq, UInt64.toNat_ofNat', Nat.mod_eq_of_lt (by omega)]
      exact hlt
    next => cases h
  | _ => cases h

theorem small_of_ofSizes? {entry metadata : Option Toml.Value}
    (hentry : ∀ value, entry = some value → value.Bounded)
    (hmetadata : ∀ value, metadata = some value → value.Bounded)
    (h : ofSizes? entry metadata = some c) : c.Small := by
  have hoptional : ∀ {value? : Option Toml.Value} {limit? : Option UInt64},
      (∀ value, value? = some value → value.Bounded) → optionalSize? value? = some limit? →
        ∀ limit, limit? = some limit → limit.toNat < 2 ^ 63 := by
    intro value? limit? hbounded hsize limit hlimit
    cases value? with
    | none =>
      cases hsize
      cases hlimit
    | some value =>
      obtain ⟨found, hfound, rfl⟩ := Option.map_eq_some_iff.1 hsize
      cases hlimit
      exact toNat_size?_lt (hbounded value rfl) hfound
  simp only [ofSizes?, Option.bind_eq_bind, Option.bind_eq_some_iff] at h
  obtain ⟨found?, hfound?, metadata?, hmetadata?, h⟩ := h
  cases h
  refine ⟨?_, hoptional hmetadata hmetadata?⟩
  cases found? with
  | none => exact small_default.entry
  | some limit => exact hoptional hentry hfound? limit rfl

/-- The limits that a value states are small, if its integers are bounded. -/
theorem small_of_ofLimits? {value : Toml.Value} (hvalue : value.Bounded)
    (h : ofLimits? value = some c) : c.Small := by
  cases hvalue with
  | table origin hentries =>
    exact small_of_ofSizes? (fun _ => Toml.Entries.Bounded.get? hentries)
      (fun _ => Toml.Entries.Bounded.get? hentries) h
  | array hitems =>
    exact small_of_ofSizes? (fun value hget => hitems value (List.mem_of_getElem? hget))
      (fun value hget => hitems value (List.mem_of_getElem? hget)) h
  | @tables items hitems =>
    have hitem : ∀ (i : Nat) (value : Toml.Value),
        (items[i]?).map (Toml.Value.table .header) = some value → value.Bounded := by
      intro i value hget
      obtain ⟨entries, hentries, rfl⟩ := Option.map_eq_some_iff.1 hget
      exact .table _ (hitems entries (List.mem_of_getElem? hentries))
    exact small_of_ofSizes? (hitem 0) (hitem 1) h
  | dateTime literal =>
    cases h
    exact small_default
  | _ => cases h

/-- The limits that a text states are small. -/
theorem small_of_stated? (h : stated? text = some c) : c.Small := by
  obtain ⟨entries, hread, hentries⟩ := Option.bind_eq_some_iff.1 h
  have hbounded := Toml.bounded_of_read? hread
  unfold ofEntries? at hentries
  split at hentries
  next =>
    cases hentries
    exact small_default
  next value hget => exact small_of_ofLimits? (hbounded.get? hget) hentries

/-! ### What is accepted -/

/-- A limit is looser than another one if there is another one, and it is none at all or greater. -/
theorem not_within_iff {limit other : UInt64} :
    ¬ LimitWithin limit other ↔ other ≠ 0 ∧ (limit = 0 ∨ other < limit) := by
  rw [LimitWithin, not_or, not_and, UInt64.not_le, Decidable.or_iff_not_imp_left (a := limit = 0)]

theorem validate_of_within
    (h : ∀ metadata, c.metadataLimit? = some metadata → LimitWithin metadata c.entryLimit) :
    c.validate = .ok c := by
  cases hmetadata : c.metadataLimit? with
  | none => simp only [validate, hmetadata]
  | some metadata =>
    simp only [validate, hmetadata]
    rw [if_neg fun hloose => not_within_iff.2 hloose (h metadata hmetadata)]

theorem validate_of_loose {metadata : UInt64} (hmetadata : c.metadataLimit? = some metadata)
    (h : ¬ LimitWithin metadata c.entryLimit) :
    c.validate = .error (.looseMetadataLimit metadata c.entryLimit) := by
  simp only [validate, hmetadata]
  rw [if_pos (not_within_iff.1 h)]

/-- What can become of a text: it states no configuration, an acceptable one, or one with a loose
metadata limit. -/
theorem ofToml_cases (text : String) :
    (stated? text = none ∧ ofToml text = .error .notToml) ∨
    (∃ config, stated? text = some config ∧ ofToml text = .ok config ∧
      ∀ metadata, config.metadataLimit? = some metadata →
        LimitWithin metadata config.entryLimit) ∨
    ∃ entry metadata, stated? text = some ⟨entry, some metadata⟩ ∧
      ¬ LimitWithin metadata entry ∧
      ofToml text = .error (.looseMetadataLimit metadata entry) := by
  cases hstated : stated? text with
  | none =>
    unfold stated? at hstated
    exact Or.inl ⟨rfl, by rw [ofToml, hstated]⟩
  | some config =>
    have hresult : ofToml text = config.validate := by
      unfold stated? at hstated
      rw [ofToml, hstated]
    rw [hresult]
    refine Or.inr ?_
    by_cases hwithin : ∀ metadata, config.metadataLimit? = some metadata →
        LimitWithin metadata config.entryLimit
    · exact Or.inl ⟨config, rfl, validate_of_within hwithin, hwithin⟩
    · push Not at hwithin
      obtain ⟨metadata, hmetadata, hloose⟩ := hwithin
      refine Or.inr ⟨config.entryLimit, metadata, by rw [← hmetadata], hloose, ?_⟩
      exact validate_of_loose hmetadata hloose

/-- A text is accepted with the configuration it states, if its metadata limit is not loose. -/
theorem ofToml_eq_ok_iff : ofToml text = .ok c ↔ stated? text = some c ∧
    ∀ metadata, c.metadataLimit? = some metadata → LimitWithin metadata c.entryLimit := by
  obtain ⟨hstated, hresult⟩ | ⟨config, hstated, hresult, hwithin⟩ |
    ⟨entry, metadata, hstated, hloose, hresult⟩ := ofToml_cases text
  · simp [hstated, hresult]
  · rw [hstated, hresult, Except.ok.injEq, Option.some.injEq]
    constructor
    · rintro rfl
      exact ⟨rfl, hwithin⟩
    · exact And.left
  · rw [hstated, hresult, Option.some.injEq]
    simp only [reduceCtorEq, false_iff]
    rintro ⟨rfl, hwithin⟩
    exact hloose (hwithin metadata rfl)

/-- A text is refused for its limits if it states a loose metadata limit. -/
theorem ofToml_eq_loose_iff {metadata entry : UInt64} :
    ofToml text = .error (.looseMetadataLimit metadata entry) ↔
      stated? text = some ⟨entry, some metadata⟩ ∧ ¬ LimitWithin metadata entry := by
  obtain ⟨hstated, hresult⟩ | ⟨config, hstated, hresult, hwithin⟩ |
    ⟨known, limit, hstated, hloose, hresult⟩ := ofToml_cases text
  · simp [hstated, hresult]
  · rw [hstated, hresult, Option.some.injEq]
    simp only [reduceCtorEq, false_iff]
    rintro ⟨rfl, hloose⟩
    exact hloose (hwithin metadata rfl)
  · rw [hstated, hresult]
    simp only [Except.error.injEq, ConfigDefect.looseMetadataLimit.injEq, Option.some.injEq,
      Config.mk.injEq]
    constructor
    · rintro ⟨rfl, rfl⟩
      exact ⟨⟨rfl, rfl⟩, hloose⟩
    · rintro ⟨⟨rfl, rfl⟩, -⟩
      exact ⟨rfl, rfl⟩

/-! ### The limits in force -/

/-- Where no metadata limit is stated there is one, which is no looser than the content limit and
not above the default. -/
theorem metadataInForce_of_none (h : c.metadataLimit? = none) :
    c.metadataInForce ≠ 0 ∧ c.metadataInForce ≤ defaultMetadataLimit ∧
      LimitWithin c.metadataInForce c.entryLimit := by
  simp only [metadataInForce, h]
  by_cases hentry : c.entryLimit = 0
  · rw [if_pos hentry]
    exact ⟨by decide, UInt64.le_refl _, Or.inl hentry⟩
  rw [if_neg hentry]
  by_cases hle : defaultMetadataLimit ≤ c.entryLimit
  · have hmin : min defaultMetadataLimit c.entryLimit = defaultMetadataLimit := if_pos hle
    have hsome : defaultMetadataLimit ≠ 0 := by decide
    rw [hmin]
    exact ⟨hsome, UInt64.le_refl _, Or.inr ⟨hsome, hle⟩⟩
  · have hmin : min defaultMetadataLimit c.entryLimit = c.entryLimit := if_neg hle
    rw [hmin]
    exact ⟨hentry, UInt64.le_of_lt (UInt64.not_le.1 hle), Or.inr ⟨hentry, UInt64.le_refl _⟩⟩

/-- The metadata limit in force is small if the stated limits are. -/
theorem Small.metadataInForce_lt (h : c.Small) : c.metadataInForce.toNat < 2 ^ 63 := by
  cases hmetadata : c.metadataLimit? with
  | none =>
    obtain ⟨-, hle, -⟩ := metadataInForce_of_none hmetadata
    have hdefault : defaultMetadataLimit.toNat < 2 ^ 63 := by decide
    exact Nat.lt_of_le_of_lt (UInt64.le_iff_toNat_le.1 hle) hdefault
  | some limit =>
    simp only [metadataInForce, hmetadata]
    exact h.metadata limit hmetadata

/-- The metadata limit in force is no looser than the content limit if a stated one is not. -/
theorem within_metadataInForce
    (h : ∀ metadata, c.metadataLimit? = some metadata → LimitWithin metadata c.entryLimit) :
    LimitWithin c.metadataInForce c.entryLimit := by
  cases hmetadata : c.metadataLimit? with
  | none => exact (metadataInForce_of_none hmetadata).2.2
  | some limit =>
    simp only [metadataInForce, hmetadata]
    exact h limit hmetadata

theorem ne_wrappingLimit {limit : UInt64} (h : limit.toNat < 2 ^ 63) : limit ≠ wrappingLimit := by
  rintro rfl
  exact absurd h (by decide)

/-- A text is refused for its limits exactly if it states a metadata limit beside a content limit
that is not zero, where the metadata limit is zero or greater; otherwise what it states is accepted.
The metadata limit of an accepted configuration is no looser than the content limit, with zero for
no limit, and there is one if none is stated. One more than either limit is no overflow, so that
every metadata entry is compared with the limit itself. -/
theorem accepted_configurations_are_consistent (text : String) :
    (∀ metadata entry, ofToml text = .error (.looseMetadataLimit metadata entry) ↔
      stated? text = some ⟨entry, some metadata⟩ ∧
        entry ≠ 0 ∧ (metadata = 0 ∨ entry < metadata)) ∧
    (∀ config, ofToml text = .ok config ↔ stated? text = some config ∧
      ∀ metadata, config.metadataLimit? = some metadata →
        ¬ (config.entryLimit ≠ 0 ∧ (metadata = 0 ∨ config.entryLimit < metadata))) ∧
    ∀ config, ofToml text = .ok config →
      LimitWithin config.limits.metadata config.limits.entry ∧
      (config.metadataLimit? = none → config.limits.metadata ≠ 0) ∧
      (config.limits.entry + 1).toNat = config.limits.entry.toNat + 1 ∧
      (config.limits.metadata + 1).toNat = config.limits.metadata.toNat + 1 ∧
      ∀ name content, (Entry.mk name (.octets content true)).metadataOctets config.limits.metadata =
        if config.limits.metadata = 0 ∨ content.length ≤ config.limits.metadata.toNat then
          .ok content
        else .error (.tooLarge name config.limits.metadata) := by
  refine ⟨fun metadata entry => ?_, fun config => ?_, fun config haccepted => ?_⟩
  · rw [ofToml_eq_loose_iff, not_within_iff]
  · simp only [ofToml_eq_ok_iff, ← not_within_iff, not_not]
  · obtain ⟨hstated, hwithin⟩ := ofToml_eq_ok_iff.1 haccepted
    have hsmall := small_of_stated? hstated
    have hmetadata : config.limits.metadata ≠ wrappingLimit :=
      ne_wrappingLimit hsmall.metadataInForce_lt
    refine ⟨within_metadataInForce hwithin, fun hnone => (metadataInForce_of_none hnone).1,
      toNat_add_one (ne_wrappingLimit hsmall.entry), toNat_add_one hmetadata,
      fun name content => ?_⟩
    rw [Entry.metadataOctets_octets hmetadata rfl]
    rfl

/-- A content limit alone brings the metadata limit down to it, and a metadata limit of zero beside
it is refused. -/
theorem one_stated_limit_is_in_force_for_both :
    let text := "[limits]\nmax_entry_bytes = 1_024\n"
    ofToml text = .ok ⟨1024, none⟩ ∧ (Config.mk 1024 none).limits = ⟨1024, 1024⟩ ∧
      LimitWithin 1024 1024 ∧ ((1024 : UInt64) + 1).toNat = 1025 ∧
      ofToml (text ++ "max_metadata_bytes = 0") = .error (.looseMetadataLimit 0 1024) := by
  intro text
  have haccepted : ofToml text = .ok ⟨1024, none⟩ := by decide +kernel
  obtain ⟨-, -, hconsistent⟩ := accepted_configurations_are_consistent text
  obtain ⟨hwithin, -, hnext, -⟩ := hconsistent _ haccepted
  exact ⟨haccepted, rfl, hwithin, hnext, by decide +kernel⟩

end JarSigners.Config
