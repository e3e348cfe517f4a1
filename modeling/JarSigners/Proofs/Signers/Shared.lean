import JarSigners.Proofs.Archive.History
import JarSigners.Proofs.Signers.Set
import JarSigners.Signers.Shared

/-!
# From reads to shared signers

The signers of an archive come from the answers to the reads of its content entries, and each of
these is the answer that a fresh archive gives (`sharedSigners_result`).
-/

set_option autoImplicit false

namespace JarSigners

/-- What further answers make of the signers of the first one. -/
def compareAnswers (firstName : String) (first : SignerSet) :
    List (Except ReadError CheckedEntry) → Except SignersError SignerSet
  | [] => .ok first
  | .error e :: _ => .error (.archive e)
  | .ok entry :: rest =>
    match disagreement? firstName first entry with
    | some d => .error (.disagreement d)
    | none => compareAnswers firstName first rest

/-- The signers that the answers to some reads have in common. -/
def sharedAnswers : List (Except ReadError CheckedEntry) → Except SignersError SignerSet
  | [] => .ok .empty
  | .error e :: _ => .error (.archive e)
  | .ok entry :: rest => compareAnswers entry.name (.ofList entry.signers) rest

theorem disagreement?_eq_none_iff {firstName : String} {first : SignerSet}
    {entry : CheckedEntry} :
    disagreement? firstName first entry = none ↔
      first.same (.ofList entry.signers) = true := by
  simp only [disagreement?]
  split
  next hsame => simp [hsame]
  next hdiffer => simp [hdiffer]

namespace SignedArchive

/-- The comparison of further entries is one of answers that do not depend on each other. -/
theorem compareRest_result (firstName : String) (first : SignerSet) (positions : List Nat)
    (a : SignedArchive) (said : List Warning) :
    (compareRest firstName first positions a said).result =
      compareAnswers firstName first (positions.map fun i => (a.read i).result) := by
  induction positions generalizing a said with
  | nil => rfl
  | cons i rest ih =>
    rw [compareRest, List.map_cons]
    cases hread : (a.read i).result with
    | error e => rfl
    | ok entry =>
      rw [compareAnswers]
      cases hdisagree : disagreement? firstName first entry with
      | some d => simp only [hdisagree]
      | none =>
        -- The rest is read on another archive, which gives the same answers.
        simp only [hdisagree, ih, read_read_result]

/-- The shared signers of an archive come from the answers to the reads of its content. -/
theorem sharedSigners_result (a : SignedArchive) :
    a.sharedSigners.result =
      sharedAnswers ((contentPositions a.entries).map fun i => (a.read i).result) := by
  unfold sharedSigners
  cases contentPositions a.entries with
  | nil => rfl
  | cons i rest =>
    rw [List.map_cons]
    cases hread : (a.read i).result with
    | error e => simp [sharedAnswers, hread]
    | ok entry =>
      simp only [hread, sharedAnswers, compareRest_result, read_read_result]

end SignedArchive

end JarSigners
