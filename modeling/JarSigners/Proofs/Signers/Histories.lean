import JarSigners.Proofs.Signers.Set
import Mathlib.Data.Finset.Card

/-!
# Sets of signers after any history

However a set of signers came about, it is the set of all signers that were inserted, one after the
other (`SetHistory.set_eq`). So its sequence and its index, of which membership, length and equality
look at one each, tell of the same fingerprints
(`sequence_and_index_agree_after_any_history`).
-/

set_option autoImplicit false

namespace JarSigners

namespace SignerSet

/-- A signer changes a set by an insertion unless the set holds it. -/
theorem insert_eq_self_iff {set : SignerSet} {signer : Chain} :
    (set.insert signer).2 = set ↔ set.contains signer = true := by
  cases hknown : set.contains signer with
  | true => simp [insert, hknown]
  | false =>
    have hlonger : set.signers ++ [signer] ≠ set.signers := by simp
    simp only [insert, hknown, Bool.false_eq_true, if_false, iff_false]
    exact fun hsame => hlonger (congrArg SignerSet.signers hsame)

/-- The index lists the fingerprints of the signers, the last one first. -/
theorem index_ofList (signers : List Chain) :
    (ofList signers).index = ((ofList signers).signers.map Chain.fingerprint).reverse := by
  induction signers using List.reverseRecOn with
  | nil => rfl
  | append_singleton signers signer ih =>
    rw [ofList_concat]
    cases hknown : (ofList signers).contains signer with
    | true => rw [insert_eq_self_iff.2 hknown, ih]
    | false => simp [insert, hknown, ih]

/-- There are as many signers as fingerprints. -/
theorem size_ofList (signers : List Chain) :
    (ofList signers).size = (signers.map Chain.fingerprint).toFinset.card := by
  have hprints : ((ofList signers).signers.map Chain.fingerprint).toFinset =
      (signers.map Chain.fingerprint).toFinset := by
    ext print
    rw [List.mem_toFinset, List.mem_toFinset, samePrints_ofList signers print]
  rw [← hprints, List.toFinset_card_of_nodup (coherent_ofList signers).distinct, List.length_map,
    size]

end SignerSet

/-- How a set came about: empty or from a list, and then by insertions. A copy goes on from where
it was made. -/
inductive SetHistory where
  | empty
  | ofList (signers : List Chain)
  | insert (before : SetHistory) (signer : Chain)
  | copy (before : SetHistory)

namespace SetHistory

/-- The set that a history leads to. -/
def set : SetHistory → SignerSet
  | empty => .empty
  | ofList signers => .ofList signers
  | insert before signer => (before.set.insert signer).2
  | copy before => before.set

/-- All signers of a history, in the order in which they came. -/
def inserted : SetHistory → List Chain
  | empty => []
  | ofList signers => signers
  | insert before signer => before.inserted ++ [signer]
  | copy before => before.inserted

/-- Whatever the history, the set is that of the list of all signers. -/
theorem set_eq (h : SetHistory) : h.set = .ofList h.inserted := by
  induction h with
  | empty => rfl
  | ofList signers => rfl
  | insert before signer ih => rw [set, inserted, SignerSet.ofList_concat, ih]
  | copy before ih => exact ih

end SetHistory

/-- A set of signers is one in the order of insertion. After any history its index has the
fingerprints of the signers it stores, each once; it stores the first signer that came with each
fingerprint, and has as many as there were fingerprints. It holds a signer if the fingerprint came
before; exactly otherwise an insertion adds it, and the set changes. Two sets are the same if their
signers have the same fingerprints in perhaps another order, and this is so if they came with the
same fingerprints, in whatever order and however often. -/
theorem sequence_and_index_agree_after_any_history (h : SetHistory) :
    h.set.index.Perm (h.set.signers.map Chain.fingerprint) ∧
    (h.set.signers.map Chain.fingerprint).Nodup ∧
    h.set.signers = firstByPrint h.inserted ∧
    h.set.size = (h.inserted.map Chain.fingerprint).toFinset.card ∧
    (∀ signer,
      (h.set.contains signer = true ↔ signer.fingerprint ∈ h.inserted.map Chain.fingerprint) ∧
      ((h.set.insert signer).1 = true ↔ h.set.contains signer = false) ∧
      ((h.set.insert signer).2 = h.set ↔ h.set.contains signer = true)) ∧
    ∀ other : SetHistory,
      (h.set.same other.set = true ↔
        (h.set.signers.map Chain.fingerprint).Perm (other.set.signers.map Chain.fingerprint)) ∧
      (h.set.same other.set = true ↔ SamePrints h.inserted other.inserted) := by
  rw [h.set_eq]
  have hcoherent := SignerSet.coherent_ofList h.inserted
  refine ⟨?_, hcoherent.distinct, SignerSet.signers_ofList _, SignerSet.size_ofList _, ?_, ?_⟩
  · rw [SignerSet.index_ofList]
    exact List.reverse_perm _
  · intro signer
    refine ⟨?_, ?_, SignerSet.insert_eq_self_iff⟩
    · rw [SignerSet.contains_eq_true_iff, SignerSet.mem_index_ofList]
    · rw [SignerSet.insert_added, Bool.not_eq_true']
  · intro other
    rw [other.set_eq]
    have hother := SignerSet.coherent_ofList other.inserted
    refine ⟨?_, SignerSet.same_ofList_iff⟩
    rw [hcoherent.same_iff_samePrints hother,
      List.perm_ext_iff_of_nodup hcoherent.distinct hother.distinct, SamePrints]

end JarSigners
