import JarSigners.Signers.Set
import Mathlib.Data.List.Induction
import Mathlib.Data.List.Nodup

/-!
# Sets of signers and their index

The index of a set holds the fingerprints of its signers, and no two signers have the same one
(`Coherent`). Every insertion keeps this, so a set made from a list holds one signer for each
fingerprint in the list, the first that has it (`signers_ofList`), and two sets are the same if
they have the same fingerprints.
-/

set_option autoImplicit false

namespace JarSigners

/-! ### Fingerprints of lists -/

/-- The first signer with each fingerprint, in order. -/
def firstByPrint (signers : List Chain) : List Chain :=
  signers.eraseDupsBy fun a b => a.fingerprint == b.fingerprint

/-- Two lists have the same fingerprints, in whatever order and however often. -/
def SamePrints (a b : List Chain) : Prop :=
  ∀ print, print ∈ a.map Chain.fingerprint ↔ print ∈ b.map Chain.fingerprint

namespace SamePrints

variable {a b c : List Chain}

theorem refl (a : List Chain) : SamePrints a a :=
  fun _ => Iff.rfl

theorem symm (h : SamePrints a b) : SamePrints b a :=
  fun print => (h print).symm

theorem trans (hab : SamePrints a b) (hbc : SamePrints b c) : SamePrints a c :=
  fun print => (hab print).trans (hbc print)

/-- The same signers have the same fingerprints. -/
theorem of_mem_iff (h : ∀ signer, signer ∈ a ↔ signer ∈ b) : SamePrints a b := by
  intro print
  simp only [List.mem_map, h]

/-- Nobody and somebody do not have the same fingerprints. -/
theorem eq_nil (h : SamePrints [] b) : b = [] := by
  rw [List.eq_nil_iff_forall_not_mem]
  intro signer hmem
  exact List.not_mem_nil ((h signer.fingerprint).2 (List.mem_map_of_mem hmem))

end SamePrints

/-! ### Sets -/

namespace SignerSet

/-- The index mirrors the signers, of which no two have the same fingerprint. -/
structure Coherent (set : SignerSet) : Prop where
  index : ∀ print, print ∈ set.index ↔ print ∈ set.signers.map Chain.fingerprint
  distinct : (set.signers.map Chain.fingerprint).Nodup

theorem coherent_empty : empty.Coherent where
  index := fun _ => Iff.rfl
  distinct := List.nodup_nil

theorem contains_eq_true_iff {set : SignerSet} {signer : Chain} :
    set.contains signer = true ↔ signer.fingerprint ∈ set.index :=
  List.contains_iff_mem

theorem signers_insert (set : SignerSet) (signer : Chain) :
    (set.insert signer).2.signers =
      if signer.fingerprint ∈ set.index then set.signers else set.signers ++ [signer] := by
  simp only [insert, contains_eq_true_iff]
  split <;> rfl

/-- An insertion adds the fingerprint of the signer, unless it is there. -/
theorem mem_index_insert {set : SignerSet} {signer : Chain} {print : Bytes} :
    print ∈ (set.insert signer).2.index ↔ print ∈ set.index ∨ print = signer.fingerprint := by
  simp only [insert, contains_eq_true_iff]
  split
  next hknown =>
    constructor
    · exact Or.inl
    · rintro (hmem | rfl)
      · exact hmem
      · exact hknown
  next =>
    rw [List.mem_cons]
    exact or_comm

theorem Coherent.insert {set : SignerSet} (h : set.Coherent) (signer : Chain) :
    (set.insert signer).2.Coherent := by
  by_cases hknown : signer.fingerprint ∈ set.index
  · have hsame : (set.insert signer).2 = set := by
      simp only [SignerSet.insert, contains_eq_true_iff, if_pos hknown]
    rw [hsame]
    exact h
  · constructor
    · intro print
      rw [mem_index_insert, signers_insert, if_neg hknown, h.index, List.map_append,
        List.mem_append, List.map_singleton, List.mem_singleton]
    · rw [signers_insert, if_neg hknown, List.map_append, List.map_singleton,
        ← List.concat_eq_append]
      rw [h.index] at hknown
      exact h.distinct.concat hknown

/-- The last of some signers is inserted last. -/
theorem ofList_concat (signers : List Chain) (signer : Chain) :
    ofList (signers ++ [signer]) = ((ofList signers).insert signer).2 := by
  rw [ofList, List.foldl_append]
  rfl

theorem coherent_ofList (signers : List Chain) : (ofList signers).Coherent := by
  induction signers using List.reverseRecOn with
  | nil => exact coherent_empty
  | append_singleton signers signer ih =>
    rw [ofList_concat]
    exact ih.insert signer

/-- The set of some signers has the fingerprints that they have. -/
theorem mem_index_ofList {signers : List Chain} {print : Bytes} :
    print ∈ (ofList signers).index ↔ print ∈ signers.map Chain.fingerprint := by
  induction signers using List.reverseRecOn with
  | nil => rfl
  | append_singleton signers signer ih =>
    rw [ofList_concat, mem_index_insert, ih, List.map_append, List.mem_append,
      List.map_singleton, List.mem_singleton]

/-- The signers in the set of some signers are some of them, in the order they have there. -/
theorem signers_ofList_sublist (signers : List Chain) :
    (ofList signers).signers.Sublist signers := by
  induction signers using List.reverseRecOn with
  | nil => exact List.Sublist.slnil
  | append_singleton signers signer ih =>
    rw [ofList_concat, signers_insert]
    split
    · exact ih.trans (List.sublist_append_left signers [signer])
    · exact ih.append (List.Sublist.refl [signer])

/-- Two sets are the same if they have the same fingerprints. -/
theorem same_iff {a b : SignerSet} :
    a.same b = true ↔ ∀ print, print ∈ a.index ↔ print ∈ b.index := by
  simp only [same, Bool.and_eq_true, List.all_eq_true, List.contains_iff_mem]
  constructor
  · rintro ⟨hab, hba⟩ print
    exact ⟨hab print, hba print⟩
  · intro h
    exact ⟨fun print => (h print).1, fun print => (h print).2⟩

/-- Two sets are the same if their signers have the same fingerprints. -/
theorem Coherent.same_iff_samePrints {a b : SignerSet} (ha : a.Coherent) (hb : b.Coherent) :
    a.same b = true ↔ SamePrints a.signers b.signers := by
  simp only [same_iff, ha.index, hb.index, SamePrints]

/-- Sets with the same fingerprints list them in perhaps another order. -/
theorem Coherent.perm_of_samePrints {a b : SignerSet} (ha : a.Coherent) (hb : b.Coherent)
    (h : SamePrints a.signers b.signers) :
    (a.signers.map Chain.fingerprint).Perm (b.signers.map Chain.fingerprint) :=
  (List.perm_ext_iff_of_nodup ha.distinct hb.distinct).2 h

/-- What insertions add to a set is the first of the new signers with each new fingerprint. -/
theorem signers_foldl_insert (set : SignerSet) (signers : List Chain) :
    (signers.foldl (fun set signer => (set.insert signer).2) set).signers =
      set.signers ++ firstByPrint (signers.filter fun signer => !set.contains signer) := by
  induction signers generalizing set with
  | nil => simp [firstByPrint]
  | cons signer rest ih =>
    rw [List.foldl_cons, ih]
    cases hknown : set.contains signer with
    | true =>
      have hsame : (set.insert signer).2 = set := by simp [insert, hknown]
      simp [hsame, hknown]
    | false =>
      have hadded : (set.insert signer).2.signers = set.signers ++ [signer] := by
        simp [insert, hknown]
      simp only [hadded, contains_insert, firstByPrint, List.filter_cons, hknown, Bool.not_false,
        if_true, List.eraseDupsBy_cons, List.filter_filter, List.append_assoc,
        List.singleton_append, List.append_cancel_left_eq, List.cons.injEq, true_and]
      congr 2
      funext other
      cases hprint : other.fingerprint == signer.fingerprint <;> simp

/-- The set of some signers lists the first of them with each fingerprint. -/
theorem signers_ofList (signers : List Chain) :
    (ofList signers).signers = firstByPrint signers := by
  have hall : (signers.filter fun signer => !empty.contains signer) = signers := by
    simp [contains_empty]
  rw [ofList, signers_foldl_insert, hall]
  rfl

theorem samePrints_ofList (signers : List Chain) : SamePrints (ofList signers).signers signers :=
  fun print => ((coherent_ofList signers).index print).symm.trans mem_index_ofList

/-- The sets of some signers are the same if these have the same fingerprints. -/
theorem same_ofList_iff {a b : List Chain} :
    (ofList a).same (ofList b) = true ↔ SamePrints a b := by
  simp only [same_iff, mem_index_ofList, SamePrints]

end SignerSet

end JarSigners
