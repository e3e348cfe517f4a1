import JarSigners.Certificate.Chain

/-!
# Sets of signers

A signer is known by a certificate chain. A set keeps signers in the order they first came;
whether it holds a signer, and whether two sets are equal, is decided by fingerprints alone.
-/

set_option autoImplicit false

namespace JarSigners

/-- Signers in the order they came, and the fingerprints of all of them. -/
structure SignerSet where
  signers : List Chain
  index : List Bytes

namespace SignerSet

def empty : SignerSet := ⟨[], []⟩

def contains (set : SignerSet) (signer : Chain) : Bool :=
  set.index.contains signer.fingerprint

/-- Add a signer unless the set holds it, and say whether it was added. -/
def insert (set : SignerSet) (signer : Chain) : Bool × SignerSet :=
  if set.contains signer then (false, set)
  else (true, ⟨set.signers ++ [signer], signer.fingerprint :: set.index⟩)

theorem contains_empty (signer : Chain) : empty.contains signer = false := rfl

/-- A signer is added exactly if the set did not hold it. -/
theorem insert_added (set : SignerSet) (signer : Chain) :
    (set.insert signer).1 = !set.contains signer := by
  cases h : set.contains signer <;> simp [insert, h]

/-- After an insertion the set holds the signer and what it held before. -/
theorem contains_insert (set : SignerSet) (signer other : Chain) :
    (set.insert signer).2.contains other =
      (set.contains other || other.fingerprint == signer.fingerprint) := by
  cases h : set.contains signer with
  | true =>
    simp only [insert, h, if_pos]
    by_cases he : other.fingerprint = signer.fingerprint
    · rw [contains, he, ← contains, h, Bool.true_or]
    · simp [he]
  | false =>
    simp only [insert, h, Bool.false_eq_true, if_false]
    simp only [contains, List.contains_cons]
    exact Bool.or_comm _ _

/-- The set of some signers. -/
def ofList (signers : List Chain) : SignerSet :=
  signers.foldl (fun set signer => (set.insert signer).2) empty

def size (set : SignerSet) : Nat :=
  set.signers.length

def isEmpty (set : SignerSet) : Bool :=
  set.signers.isEmpty

def names (set : SignerSet) : List String :=
  set.signers.map Chain.displayName

/-- Whether two sets hold the same signers, in whatever order. -/
def same (a b : SignerSet) : Bool :=
  a.index.all b.index.contains && b.index.all a.index.contains

end SignerSet

end JarSigners
