import JarSigners.Proofs.Manifest.Agreement
import JarSigners.Proofs.Steps
import JarSigners.SignatureFile

/-!
# What a signature file signs

A signature file that confirms a manifest as a whole signs every entry it names. Otherwise it
must not contradict the main section, and its sections are taken in order: the first one that
has no counterpart in the manifest, or contradicts it, decides the failure, and if there is none
the signed entries are those whose sections confirm their counterparts.
-/

set_option autoImplicit false

namespace JarSigners

instance Section.decidableConfirms (s : Section) (ending : String) (octets : Bytes) :
    Decidable (s.Confirms ending octets) :=
  decidable_of_iff _ Agreement.of_eq_agrees_iff

namespace SignatureFile

variable {f : SignatureFile} {m : Manifest} {s : Section} {failure : TrustFailure}
  {names : List String}

/-- The signature file confirms the octets of the whole manifest. -/
def ConfirmsWhole (f : SignatureFile) (m : Manifest) : Prop :=
  f.content.main.Confirms "-Digest-Manifest" m.bytes

/-- The signature file contradicts the octets of the manifest's main section. -/
def ContradictsMain (f : SignatureFile) (m : Manifest) : Prop :=
  ∃ a, f.content.main.Contradicts "-Digest-Manifest-Main-Attributes" m.mainOctets a

/-- The octets of the manifest's section of the same name. -/
def counterpart? (m : Manifest) (s : Section) : Option Bytes :=
  s.name?.bind m.sectionOctets?

/-- A section confirms the octets of its counterpart. -/
def Signs (m : Manifest) (s : Section) : Prop :=
  ∃ octets, counterpart? m s = some octets ∧ s.Confirms "-Digest" octets

instance decidableSigns (m : Manifest) (s : Section) : Decidable (Signs m s) :=
  match h : counterpart? m s with
  | none => isFalse fun ⟨_, hoctets, _⟩ => by simp [h] at hoctets
  | some octets => decidable_of_iff (s.Confirms "-Digest" octets) (by simp [Signs, h])

/-- Why a section of a signature file refuses a manifest. -/
inductive Refuses (f : SignatureFile) (m : Manifest) (s : Section) : TrustFailure → Prop
  | missing {entry : String} (hname : s.name? = some entry) (hmissing : m.section? entry = none) :
    Refuses f m s (.missingSection f.name entry)
  | differs {entry : String} {octets : Bytes} {a : Digest.Algorithm}
    (hname : s.name? = some entry) (hoctets : m.sectionOctets? entry = some octets)
    (hdiffers : s.Contradicts "-Digest" octets a) :
    Refuses f m s (.sectionDiffers f.name entry a)

theorem refuses_iff :
    f.Refuses m s failure ↔
      ∃ entry, s.name? = some entry ∧ f.verdict m s entry = .refused failure := by
  simp only [verdict]
  constructor
  · intro h
    cases h with
    | missing hname hmissing =>
      exact ⟨_, hname, by simp [Manifest.sectionOctets?, hmissing]⟩
    | differs hname hoctets hdiffers =>
      exact ⟨_, hname, by simp [hoctets, Agreement.of_eq_differs_iff.2 hdiffers]⟩
  · rintro ⟨entry, hname, hverdict⟩
    split at hverdict
    next hnone =>
      cases hverdict
      exact .missing hname (Option.map_eq_none_iff.1 hnone)
    next octets hoctets =>
      split at hverdict
      next => cases hverdict
      next => cases hverdict
      next a hdiffers =>
        cases hverdict
        exact .differs hname hoctets (Agreement.of_eq_differs_iff.1 hdiffers)

theorem signs_iff :
    Signs m s ↔ ∃ entry, s.name? = some entry ∧ f.verdict m s entry = .signed := by
  simp only [Signs, counterpart?, Option.bind_eq_some_iff, verdict]
  constructor
  · rintro ⟨octets, ⟨entry, hname, hoctets⟩, hconfirms⟩
    exact ⟨entry, hname, by simp [hoctets, Agreement.of_eq_agrees_iff.2 hconfirms]⟩
  · rintro ⟨entry, hname, hverdict⟩
    split at hverdict
    next => cases hverdict
    next octets hoctets =>
      split at hverdict
      next hagrees => exact ⟨octets, ⟨entry, hname, hoctets⟩, Agreement.of_eq_agrees_iff.1 hagrees⟩
      next => cases hverdict
      next => cases hverdict

/-- The failure that the verdict on a section's entry stands for. -/
def refusal? (f : SignatureFile) (m : Manifest) (s : Section) : Option TrustFailure :=
  s.name?.bind fun entry => (f.verdict m s entry).failure?

theorem refusal?_eq_some_iff : f.refusal? m s = some failure ↔ f.Refuses m s failure := by
  rw [refuses_iff, refusal?, Option.bind_eq_some_iff]
  have hrefused : ∀ v : Verdict, v.failure? = some failure ↔ v = .refused failure := by
    intro v
    cases v <;> simp [Verdict.failure?]
  simp only [hrefused]

theorem refusal?_eq_none_iff : f.refusal? m s = none ↔ ∀ failure, ¬ f.Refuses m s failure := by
  simp only [← refusal?_eq_some_iff, Option.eq_none_iff_forall_ne_some]

/-- The first refusal among the verdicts is that of the first section that refuses. -/
theorem findSome?_verdicts (f : SignatureFile) (m : Manifest) :
    ((f.verdicts m).findSome? fun v => v.2.failure?) =
      f.content.sections.findSome? (f.refusal? m) := by
  rw [verdicts, ← List.head?_filterMap, List.filterMap_filterMap, List.head?_filterMap]
  congr 1
  funext s
  cases hname : s.name? <;> simp [refusal?, hname]

/-- The names with the verdict that they are signed are those of the sections that sign. -/
theorem signed_verdicts (f : SignatureFile) (m : Manifest) :
    ((f.verdicts m).filter fun v => v.2 = .signed).map Prod.fst =
      (f.content.sections.filter fun s => Signs m s).filterMap Section.name? := by
  rw [verdicts, List.filter_filterMap, List.map_filterMap, List.filterMap_filter]
  refine List.filterMap_congr fun s _ => ?_
  cases hname : s.name? with
  | none => simp
  | some entry =>
    have hsigns : Signs m s ↔ f.verdict m s entry = .signed := by
      simp [signs_iff (f := f), hname]
    by_cases h : Signs m s
    · simp [h, hsigns.1 h]
    · simp [h, mt hsigns.2 h]

theorem checkedEntries_eq_ok_iff :
    checkedEntries (f.verdicts m) = .ok names ↔
      (∀ s ∈ f.content.sections, ∀ failure, ¬ f.Refuses m s failure) ∧
        names = (f.content.sections.filter fun s => Signs m s).filterMap Section.name? := by
  have hnone : f.content.sections.findSome? (f.refusal? m) = none ↔
      ∀ s ∈ f.content.sections, ∀ failure, ¬ f.Refuses m s failure := by
    simp only [List.findSome?_eq_none_iff, refusal?_eq_none_iff]
  rw [checkedEntries, findSome?_verdicts, signed_verdicts, ← hnone]
  cases f.content.sections.findSome? (f.refusal? m) with
  | some failure => simp
  | none => simp [eq_comm]

theorem checkedEntries_eq_error_iff :
    checkedEntries (f.verdicts m) = .error failure ↔
      ∃ before s after, f.content.sections = before ++ s :: after ∧
        (∀ t ∈ before, ∀ failure, ¬ f.Refuses m t failure) ∧ f.Refuses m s failure := by
  have herror : checkedEntries (f.verdicts m) = .error failure ↔
      f.content.sections.findSome? (f.refusal? m) = some failure := by
    rw [checkedEntries, findSome?_verdicts]
    cases f.content.sections.findSome? (f.refusal? m) <;> simp
  rw [herror, List.findSome?_eq_some_iff]
  simp only [refusal?_eq_some_iff, refusal?_eq_none_iff]
  constructor
  · rintro ⟨before, s, after, hsplit, hrefuses, hbefore⟩
    exact ⟨before, s, after, hsplit, hbefore, hrefuses⟩
  · rintro ⟨before, s, after, hsplit, hbefore, hrefuses⟩
    exact ⟨before, s, after, hsplit, hrefuses, hbefore⟩

theorem coveredNames_of_confirmsWhole (h : f.ConfirmsWhole m) :
    f.coveredNames m = .ok f.namedEntries :=
  if_pos (Agreement.of_eq_agrees_iff.2 h)

theorem coveredNames_of_contradictsMain (hwhole : ¬ f.ConfirmsWhole m)
    (h : f.ContradictsMain m) : f.coveredNames m = .error (.mainDiffers f.name) := by
  obtain ⟨a, ha⟩ := h
  have hstale : f.wholeAgreement m ≠ .agrees := mt Agreement.of_eq_agrees_iff.1 hwhole
  have hmain : f.mainAgreement m = .differs a := Agreement.of_eq_differs_iff.2 ha
  rw [coveredNames, if_neg hstale, hmain]

theorem coveredNames_of_sections (hwhole : ¬ f.ConfirmsWhole m) (h : ¬ f.ContradictsMain m) :
    f.coveredNames m = checkedEntries (f.verdicts m) := by
  have hstale : f.wholeAgreement m ≠ .agrees := mt Agreement.of_eq_agrees_iff.1 hwhole
  have hmain : ∀ a, f.mainAgreement m ≠ .differs a :=
    fun a ha => h ⟨a, Agreement.of_eq_differs_iff.1 ha⟩
  rw [coveredNames, if_neg hstale]
  split
  next a ha => exact absurd ha (hmain a)
  next => rfl

/-- The names that a signature file signs are among those it names. -/
theorem subset_namedEntries (h : f.coveredNames m = .ok names) :
    ∀ name ∈ names, name ∈ f.namedEntries := by
  by_cases hwhole : f.ConfirmsWhole m
  · rw [coveredNames_of_confirmsWhole hwhole] at h
    cases h
    exact fun _ hname => hname
  by_cases hmain : f.ContradictsMain m
  · rw [coveredNames_of_contradictsMain hwhole hmain] at h
    cases h
  · rw [coveredNames_of_sections hwhole hmain, checkedEntries_eq_ok_iff] at h
    obtain ⟨_, rfl⟩ := h
    exact fun _ hname => (List.filter_sublist.filterMap _).subset hname

/-- What a signature file signs in a manifest, and why it refuses one: both exactly. -/
theorem covered_names_by_stated_digests (f : SignatureFile) (m : Manifest) :
    (∀ names, f.coveredNames m = .ok names ↔
      (f.ConfirmsWhole m ∧ names = f.namedEntries) ∨
      (¬ f.ConfirmsWhole m ∧ ¬ f.ContradictsMain m ∧
        (∀ s ∈ f.content.sections, ∀ failure, ¬ f.Refuses m s failure) ∧
        names = (f.content.sections.filter fun s => Signs m s).filterMap Section.name?)) ∧
    (∀ failure, f.coveredNames m = .error failure ↔
      ¬ f.ConfirmsWhole m ∧
        ((f.ContradictsMain m ∧ failure = .mainDiffers f.name) ∨
        (¬ f.ContradictsMain m ∧ ∃ before s after, f.content.sections = before ++ s :: after ∧
          (∀ t ∈ before, ∀ failure, ¬ f.Refuses m t failure) ∧ f.Refuses m s failure))) := by
  by_cases hwhole : f.ConfirmsWhole m
  · simp [coveredNames_of_confirmsWhole hwhole, hwhole, eq_comm]
  by_cases hmain : f.ContradictsMain m
  · simp [coveredNames_of_contradictsMain hwhole hmain, hwhole, hmain, eq_comm]
  · simp only [coveredNames_of_sections hwhole hmain, checkedEntries_eq_ok_iff,
      checkedEntries_eq_error_iff, hwhole, hmain]
    simp

end SignatureFile

end JarSigners
