import JarSigners.Proofs.Archive.Loading

/-!
# What a read remembers

An open archive keeps its signatures once they are loaded, and nothing else but the limits in
force. So the answer to a read hangs on what came before in one way only: the metadata limit
that counts is the one under which the signatures were loaded (`loadLimit?`). Every other trace
of a run is gone (`read_after_result`): its order, its repetitions, its failures.
-/

set_option autoImplicit false

namespace JarSigners

/-- What is done with an open archive. -/
inductive ReaderStep where
  | read (index : Nat)
  | limit (limits : SizeLimits)
  deriving DecidableEq, Repr

namespace SignedArchive

/-- The archive after a step. -/
def step (a : SignedArchive) : ReaderStep → SignedArchive
  | .read index => (a.read index).archive
  | .limit limits => a.limitedTo limits

/-- The archive after some steps. -/
def after (a : SignedArchive) (steps : List ReaderStep) : SignedArchive :=
  steps.foldl step a

end SignedArchive

/-- The limits in force after some steps. -/
def limitsAfter (limits : SizeLimits) : List ReaderStep → SizeLimits
  | [] => limits
  | .read _ :: rest => limitsAfter limits rest
  | .limit other :: rest => limitsAfter other rest

/-- The metadata limit in force at the first read that loads the signatures: one in range, under
a limit that lets loading succeed. -/
def loadLimit? (entries : List Entry) (limits : SizeLimits) : List ReaderStep → Option UInt64
  | [] => none
  | .read index :: rest =>
    if index < entries.length ∧
        Steps.failure? (verifySignatures entries limits.metadata) = none then
      some limits.metadata
    else loadLimit? entries limits rest
  | .limit other :: rest => loadLimit? entries other rest

namespace SignedArchive

/-! ### One step -/

@[simp] theorem read_archive_entries (a : SignedArchive) (i : Nat) :
    (a.read i).archive.entries = a.entries := by
  unfold read
  split
  · rfl
  · split <;> rfl

@[simp] theorem read_archive_limits (a : SignedArchive) (i : Nat) :
    (a.read i).archive.limits = a.limits := by
  unfold read
  split
  · rfl
  · split <;> rfl

/-- Signatures at hand stay, whatever comes of the read. -/
theorem read_keeps_signatures {a : SignedArchive} {s : Signatures} (h : a.signatures = some s)
    (i : Nat) : (a.read i).archive.signatures = some s := by
  unfold read
  split
  · exact h
  · simp [currentSignatures, h]

/-- A read in range takes up the signatures if they load. -/
theorem read_loads_signatures {a : SignedArchive} {s : Signatures} (hnone : a.signatures = none)
    {i : Nat} (hi : i < a.entries.length)
    (hload : verifySignatures a.entries a.limits.metadata = .ok s) :
    (a.read i).archive.signatures = some s := by
  rw [read, List.getElem?_eq_getElem hi]
  simp [currentSignatures, hnone, hload]

/-- A read out of range, or one that cannot load the signatures, leaves them unloaded. -/
theorem read_loads_nothing {a : SignedArchive} (hnone : a.signatures = none) {i : Nat}
    (h : ¬ (i < a.entries.length ∧
      Steps.failure? (verifySignatures a.entries a.limits.metadata) = none)) :
    (a.read i).archive.signatures = none := by
  unfold read
  split
  · exact hnone
  next e he =>
    have hi : i < a.entries.length := (List.getElem?_eq_some_iff.1 he).1
    cases hload : verifySignatures a.entries a.limits.metadata with
    | error failure => simp [currentSignatures, hnone, hload]
    | ok s => exact absurd ⟨hi, by rw [hload]; rfl⟩ h

/-- The answer to a read comes from the entries, the entry limit and the signatures. -/
theorem read_result_congr {a b : SignedArchive} (hentries : a.entries = b.entries)
    (hlimit : a.limits.entry = b.limits.entry)
    (hsignatures : a.currentSignatures = b.currentSignatures) (i : Nat) :
    (a.read i).result = (b.read i).result := by
  unfold read
  rw [hentries, hlimit, hsignatures]
  split
  · rfl
  · split <;> rfl

/-- A read shows nothing of the one before. -/
theorem read_read_result (a : SignedArchive) (i j : Nat) :
    ((a.read i).archive.read j).result = (a.read j).result := by
  apply read_result_congr
  · exact read_archive_entries a i
  · rw [read_archive_limits]
  · unfold read
    split
    · rfl
    · split
      · rfl
      next s hs => exact hs.symm

/-! ### A whole run -/

@[simp] theorem after_entries (a : SignedArchive) (steps : List ReaderStep) :
    (a.after steps).entries = a.entries := by
  induction steps generalizing a with
  | nil => rfl
  | cons s rest ih =>
    have hstep : (a.step s).entries = a.entries := by cases s <;> simp [step, limitedTo]
    exact (ih (a.step s)).trans hstep

@[simp] theorem after_limits (a : SignedArchive) (steps : List ReaderStep) :
    (a.after steps).limits = limitsAfter a.limits steps := by
  induction steps generalizing a with
  | nil => rfl
  | cons s rest ih =>
    cases s with
    | read i =>
      have hstep := ih (a.read i).archive
      rwa [read_archive_limits] at hstep
    | limit limits => exact ih (a.limitedTo limits)

theorem after_keeps_signatures {a : SignedArchive} {s : Signatures} (h : a.signatures = some s)
    (steps : List ReaderStep) : (a.after steps).signatures = some s := by
  induction steps generalizing a with
  | nil => exact h
  | cons first rest ih =>
    cases first with
    | read i => exact ih (read_keeps_signatures h i)
    | limit limits => exact ih (a := a.limitedTo limits) h

/-- After a run the signatures are those that its load limit gives, if it has one. -/
theorem after_signatures {a : SignedArchive} (hnone : a.signatures = none)
    (steps : List ReaderStep) :
    match loadLimit? a.entries a.limits steps with
    | some limit => ∃ s, verifySignatures a.entries limit = .ok s ∧
        (a.after steps).signatures = some s
    | none => (a.after steps).signatures = none := by
  induction steps generalizing a with
  | nil => exact hnone
  | cons first rest ih =>
    cases first with
    | limit limits => exact ih (a := a.limitedTo limits) hnone
    | read i =>
      rw [loadLimit?]
      by_cases hloads : i < a.entries.length ∧
          Steps.failure? (verifySignatures a.entries a.limits.metadata) = none
      · rw [if_pos hloads]
        obtain ⟨s, hs⟩ := Steps.failure?_eq_none_iff.1 hloads.2
        exact ⟨s, hs, after_keeps_signatures (read_loads_signatures hnone hloads.1 hs) rest⟩
      · rw [if_neg hloads]
        have hrest := ih (read_loads_nothing hnone hloads)
        rwa [read_archive_entries, read_archive_limits] at hrest

/-- The signatures a read works with are those that a fresh archive would load under the load
limit, or under the limit in force while there is none. -/
theorem after_currentSignatures {a : SignedArchive} (hnone : a.signatures = none)
    (steps : List ReaderStep) :
    (a.after steps).currentSignatures =
      verifySignatures a.entries
        ((loadLimit? a.entries a.limits steps).getD (limitsAfter a.limits steps).metadata) := by
  have hrun := after_signatures hnone steps
  unfold currentSignatures
  cases hlimit : loadLimit? a.entries a.limits steps with
  | none =>
    rw [hlimit] at hrun
    simp [hrun]
  | some limit =>
    rw [hlimit] at hrun
    obtain ⟨s, hs, hsignatures⟩ := hrun
    simp [hsignatures, hs]

end SignedArchive

/-- Reads leave the limits alone. -/
theorem limitsAfter_reads (limits : SizeLimits) (indices : List Nat) :
    limitsAfter limits (indices.map .read) = limits := by
  induction indices with
  | nil => rfl
  | cons i rest ih => exact ih

/-- Reads load under the limits they find. -/
theorem loadLimit?_reads (entries : List Entry) (limits : SizeLimits) (indices : List Nat) :
    (loadLimit? entries limits (indices.map .read)).getD limits.metadata = limits.metadata := by
  induction indices with
  | nil => rfl
  | cons i rest ih =>
    rw [List.map_cons, loadLimit?]
    split
    · rfl
    · exact ih

namespace SignedArchive

/-- A read after any run answers as on a fresh archive under the limits that count. -/
theorem read_after_result {a : SignedArchive} (hnone : a.signatures = none)
    (steps : List ReaderStep) (i : Nat) :
    ((a.after steps).read i).result =
      (((opened a.entries).limitedTo
        ⟨(limitsAfter a.limits steps).entry,
          (loadLimit? a.entries a.limits steps).getD
            (limitsAfter a.limits steps).metadata⟩).read i).result := by
  apply read_result_congr
  · rw [after_entries]
    rfl
  · rw [after_limits]
    rfl
  · exact after_currentSignatures hnone steps

/-- Among reads alone nothing that came before shows. -/
theorem read_after_reads_result (entries : List Entry) (limits : SizeLimits)
    (indices : List Nat) (i : Nat) :
    ((((opened entries).limitedTo limits).after (indices.map .read)).read i).result =
      (((opened entries).limitedTo limits).read i).result := by
  have hfresh := read_after_result (a := (opened entries).limitedTo limits) rfl
    (indices.map .read) i
  have hlimits : ((opened entries).limitedTo limits).limits = limits := rfl
  have hentries : ((opened entries).limitedTo limits).entries = entries := rfl
  rwa [hlimits, hentries, limitsAfter_reads, loadLimit?_reads] at hfresh

end SignedArchive

/-- A reader has no memory that shows. After any run on one archive, with reads in and out of
range, failing or not, and with limits changed in between, a read answers as on a freshly opened
archive: under the entry limit in force, and under the metadata limit of the first read that
loaded the signatures, or the one in force if none has. While limits stay, nothing that came
before counts at all, and a failure to load comes back at every read; and signatures once loaded
stay as they are. -/
theorem reads_show_no_history (entries : List Entry) :
    (∀ (steps : List ReaderStep) (i : Nat),
      (((SignedArchive.opened entries).after steps).read i).result =
        (((SignedArchive.opened entries).limitedTo
          ⟨(limitsAfter .none steps).entry,
            (loadLimit? entries .none steps).getD (limitsAfter .none steps).metadata⟩).read
              i).result) ∧
    (∀ (limits : SizeLimits) (indices : List Nat) (i : Nat),
      ((((SignedArchive.opened entries).limitedTo limits).after
        (indices.map .read)).read i).result =
          (((SignedArchive.opened entries).limitedTo limits).read i).result) ∧
    (∀ (limits : SizeLimits) (failure : ReadError),
      verifySignatures entries limits.metadata = .error failure →
      ∀ (indices : List Nat), ∀ i < entries.length,
        ((((SignedArchive.opened entries).limitedTo limits).after
          (indices.map .read)).read i).result = .error failure) ∧
    (∀ (a : SignedArchive) (s : Signatures), a.signatures = some s →
      ∀ steps : List ReaderStep, (a.after steps).signatures = some s) := by
  refine ⟨?_, ?_, ?_, ?_⟩
  · exact fun steps i => SignedArchive.read_after_result rfl steps i
  · exact SignedArchive.read_after_reads_result entries
  · intro limits failure hload indices i hi
    rw [SignedArchive.read_after_reads_result]
    exact SignedArchive.read_eq_error_of_load rfl hload hi
  · exact fun a s h steps => SignedArchive.after_keeps_signatures h steps

end JarSigners
