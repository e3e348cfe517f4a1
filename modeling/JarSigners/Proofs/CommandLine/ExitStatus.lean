import JarSigners.CommandLine.Response

/-!
# What the exit status tells

A command line that is understood ends in one of four ways: it is answered, its configuration is
at fault, the collection of signers fails, or the entries have different signers. The status
tells these apart, and an archive that fails a check from one that is not there or too large.
It does not tell a disagreement from a command line that is not understood: both end with the
same status, and only the report that comes with a disagreement sets it apart.
-/

set_option autoImplicit false

namespace JarSigners

/-- What does not speak against an archive is that it is not there or too large. -/
theorem ReadError.isTrustFailure_eq_false_iff (e : ReadError) :
    e.isTrustFailure = false ↔ e = .noFile ∨ ∃ entry limit, e = .tooLarge entry limit := by
  cases e <;> simp [isTrustFailure]

namespace ExitStatus

/-- The status for what a collection of signers came to. -/
def ofResult : Except SignersError (List Chain) → Nat
  | .ok _ => success
  | .error e => ofError e

theorem ofResult_iff (result : Except SignersError (List Chain)) :
    (ofResult result = 0 ↔ ∃ signers, result = .ok signers) ∧
    (ofResult result = 1 ↔ result = .error (.archive .noFile) ∨
      ∃ entry limit, result = .error (.archive (.tooLarge entry limit))) ∧
    (ofResult result = 2 ↔ ∃ d, result = .error (.disagreement d)) ∧
    (ofResult result = 3 ↔ ∃ e, result = .error (.archive e) ∧ e.isTrustFailure = true) := by
  rcases result with (e | d) | signers
  · cases htrust : e.isTrustFailure with
    | true =>
      have hneither : ¬ (e = .noFile ∨ ∃ entry limit, e = .tooLarge entry limit) := fun hone =>
        Bool.noConfusion (htrust.symm.trans (e.isTrustFailure_eq_false_iff.2 hone))
      simpa [ofResult, ofError, htrust, security] using hneither
    | false =>
      have hone := e.isTrustFailure_eq_false_iff.1 htrust
      simpa [ofResult, ofError, htrust, failure] using hone
  · simp [ofResult, ofError, disagreement]
  · simp [ofResult, success]

end ExitStatus

namespace Request

variable {r : Request} {files : String → FileState}

/-- The configuration of a request is at fault. -/
def Misconfigured (r : Request) (files : String → FileState) : Prop :=
  ∃ e, r.loadConfig files = .error e

/-- The configuration of a request is in order, and collecting the signers of its archive under
that configuration came to a result. -/
def Collects (r : Request) (files : String → FileState)
    (result : Except SignersError (List Chain)) : Prop :=
  ∃ config, r.loadConfig files = .ok config ∧
    (Listing.ofFile config.limits (files r.archive)).result = result

/-- A request ends at its configuration or in a collection of signers. -/
theorem misconfigured_or_collects (r : Request) (files : String → FileState) :
    r.Misconfigured files ∨ ∃ result, r.Collects files result := by
  cases hconfig : r.loadConfig files with
  | error e => exact .inl ⟨e, hconfig⟩
  | ok config => exact .inr ⟨_, config, hconfig, rfl⟩

namespace Misconfigured

theorem status (h : r.Misconfigured files) : (r.respond files).status = 1 := by
  obtain ⟨e, hconfig⟩ := h
  rw [respond, hconfig, ExitStatus.failure]

theorem report_ne_none (h : r.Misconfigured files) : (r.respond files).report ≠ none := by
  obtain ⟨e, hconfig⟩ := h
  rw [respond, hconfig]
  exact Option.some_ne_none _

theorem not_collects (h : r.Misconfigured files) (result : Except SignersError (List Chain)) :
    ¬ r.Collects files result := by
  rintro ⟨config, hconfig, -⟩
  obtain ⟨e, he⟩ := h
  rw [hconfig] at he
  cases he

end Misconfigured

namespace Collects

variable {result other : Except SignersError (List Chain)}

theorem not_misconfigured (h : r.Collects files result) : ¬ r.Misconfigured files :=
  fun hfault => hfault.not_collects result h

/-- A request comes to one result. -/
theorem collects_iff (h : r.Collects files result) :
    r.Collects files other ↔ result = other := by
  obtain ⟨config, hconfig, rfl⟩ := h
  simp [Collects, hconfig]

theorem status (h : r.Collects files result) :
    (r.respond files).status = ExitStatus.ofResult result := by
  obtain ⟨config, hconfig, rfl⟩ := h
  rw [respond, hconfig]
  simp only [respondWith]
  cases (Listing.ofFile config.limits (files r.archive)).result <;> rfl

/-- A collection is reported on if it fails. -/
theorem report_eq_none_iff (h : r.Collects files result) :
    (r.respond files).report = none ↔ ∃ signers, result = .ok signers := by
  obtain ⟨config, hconfig, rfl⟩ := h
  rw [respond, hconfig]
  simp only [respondWith]
  cases (Listing.ofFile config.limits (files r.archive)).result <;> simp

end Collects

theorem respond_iff (r : Request) (files : String → FileState) :
    ((r.respond files).status = 0 ↔ ∃ signers, r.Collects files (.ok signers)) ∧
    ((r.respond files).status = 1 ↔ r.Misconfigured files ∨
      r.Collects files (.error (.archive .noFile)) ∨
      ∃ entry limit, r.Collects files (.error (.archive (.tooLarge entry limit)))) ∧
    ((r.respond files).status = 2 ↔ ∃ d, r.Collects files (.error (.disagreement d))) ∧
    ((r.respond files).status = 3 ↔
      ∃ e, r.Collects files (.error (.archive e)) ∧ e.isTrustFailure = true) ∧
    ((r.respond files).report = none ↔ ∃ signers, r.Collects files (.ok signers)) := by
  obtain hfault | ⟨result, hresult⟩ := misconfigured_or_collects r files
  · simp [hfault.status, hfault, hfault.not_collects, hfault.report_ne_none]
  · obtain ⟨hzero, hone, htwo, hthree⟩ := ExitStatus.ofResult_iff result
    rw [hresult.status, hzero, hone, htwo, hthree, hresult.report_eq_none_iff]
    simp only [hresult.collects_iff, hresult.not_misconfigured, false_or, and_self]

end Request

/-- What each status stands for, over all files and all command lines. A failure is a
configuration that is at fault, or an archive that is not there or too large. A command line that is
not understood ends with the status of a disagreement, though without a report; every other status
stands for what it is named after. -/
theorem exit_status_by_outcome (files : String → FileState) (arguments : List String) :
    ((respond files arguments).status = 0 ↔
      Invocation.ofArguments? arguments = some .version ∨
      Invocation.ofArguments? arguments = some .help ∨
      ∃ r signers, Invocation.ofArguments? arguments = some (.request r) ∧
        r.Collects files (.ok signers)) ∧
    ((respond files arguments).status = 1 ↔
      ∃ r, Invocation.ofArguments? arguments = some (.request r) ∧
        (r.Misconfigured files ∨ r.Collects files (.error (.archive .noFile)) ∨
          ∃ entry limit, r.Collects files (.error (.archive (.tooLarge entry limit))))) ∧
    ((respond files arguments).status = 2 ↔
      Invocation.ofArguments? arguments = none ∨
      ∃ r d, Invocation.ofArguments? arguments = some (.request r) ∧
        r.Collects files (.error (.disagreement d))) ∧
    ((respond files arguments).status = 3 ↔
      ∃ r e, Invocation.ofArguments? arguments = some (.request r) ∧
        r.Collects files (.error (.archive e)) ∧ e.isTrustFailure = true) ∧
    ((respond files arguments).report = none ↔
      (respond files arguments).status = 0 ∨ Invocation.ofArguments? arguments = none) := by
  rw [respond]
  rcases hasked : Invocation.ofArguments? arguments with _ | invocation
  · simp [Response.misuse, ExitStatus.usage]
  cases invocation with
  | version => simp [Response.version, ExitStatus.success]
  | help => simp [Response.help, ExitStatus.success]
  | request r =>
    obtain ⟨hzero, hone, htwo, hthree, hreport⟩ := r.respond_iff files
    simp [hzero, hone, htwo, hthree, hreport]

/-- The status of a disagreement does not mean that there is one: a question without an archive
is a mistake in the command line and ends with that status, not with the one for failures. -/
theorem usage_shares_the_status_of_disagreement :
    ¬ ∀ (files : String → FileState) (arguments : List String),
      ((respond files arguments).status = ExitStatus.disagreement ↔
        ∃ r d, Invocation.ofArguments? arguments = some (.request r) ∧
          r.Collects files (.error (.disagreement d))) ∧
      (Invocation.ofArguments? arguments = none →
        (respond files arguments).status = ExitStatus.failure) := by
  intro htellsApart
  have hasked : Invocation.ofArguments? ["signers"] = none := by decide
  have hfailure := (htellsApart (fun _ => .missing) ["signers"]).2 hasked
  have hstatus : (respond (fun _ => .missing) ["signers"]).status = 2 := by decide
  rw [hstatus] at hfailure
  cases hfailure

end JarSigners
