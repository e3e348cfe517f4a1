import JarSigners.Archive.Reader
import JarSigners.Signers.Set

/-!
# The signers of a whole archive

An archive has the signers that every one of its content entries has. Entries are read in
order; the first that has other signers than the first content entry, or cannot be read,
decides the outcome.
-/

set_option autoImplicit false

namespace JarSigners

/-- Two entries that do not have the same signers. -/
structure SignerDisagreement where
  firstEntry : String
  firstSigners : List String
  otherEntry : String
  otherSigners : List String
  deriving DecidableEq, Repr

def SignerDisagreement.message (d : SignerDisagreement) : String :=
  let first := ", ".intercalate d.firstSigners
  let other := ", ".intercalate d.otherSigners
  s!"Mismatch between signers [{first}] for file {d.firstEntry} and signers [{other}] for file {d.otherEntry}"

/-- Why the signers of an archive cannot be told. -/
inductive SignersError where
  | archive (e : ReadError)
  | disagreement (d : SignerDisagreement)
  deriving DecidableEq, Repr

def SignersError.message? : SignersError → Option String
  | archive e => e.message?
  | disagreement d => some d.message

/-- Whether the archive failed a check of its integrity or its signatures. -/
def SignersError.isTrustFailure : SignersError → Bool
  | archive e => e.isTrustFailure
  | disagreement _ => false

/-- The signers of an archive, and what was said while it was read. -/
structure SharedOutcome where
  result : Except SignersError SignerSet
  warnings : List Warning

/-- The positions of the content entries. -/
def contentPositions (entries : List Entry) : List Nat :=
  (entries.zipIdx.filter fun (e, _) => e.isContent).map Prod.snd

/-- What an entry's own signers make of the outcome so far: nothing as long as they are those of
the first entry. -/
def disagreement? (firstName : String) (first : SignerSet) (entry : CheckedEntry) :
    Option SignerDisagreement :=
  let signers := SignerSet.ofList entry.signers
  if first.same signers then none
  else some ⟨firstName, first.names, entry.name, signers.names⟩

namespace SignedArchive

/-- Compare the entries at further positions with the first one. -/
def compareRest (firstName : String) (first : SignerSet) :
    List Nat → SignedArchive → List Warning → SharedOutcome
  | [], _, said => ⟨.ok first, said⟩
  | i :: rest, a, said =>
    let outcome := a.read i
    let said := said ++ outcome.warnings
    match outcome.result with
    | .error e => ⟨.error (.archive e), said⟩
    | .ok entry =>
      match disagreement? firstName first entry with
      | some d => ⟨.error (.disagreement d), said⟩
      | none => compareRest firstName first rest outcome.archive said

/-- The signers that all content entries have in common. -/
def sharedSigners (a : SignedArchive) : SharedOutcome :=
  match contentPositions a.entries with
  | [] => ⟨.ok .empty, []⟩
  | i :: rest =>
    let outcome := a.read i
    match outcome.result with
    | .error e => ⟨.error (.archive e), outcome.warnings⟩
    | .ok entry =>
      compareRest entry.name (.ofList entry.signers) rest outcome.archive outcome.warnings

end SignedArchive

/-- The signers of an archive with these entries, under limits. -/
def sharedSigners (entries : List Entry) (limits : SizeLimits) : SharedOutcome :=
  ((SignedArchive.opened entries).limitedTo limits).sharedSigners

end JarSigners
