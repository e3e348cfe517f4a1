import JarSigners.Archive.Signatures
import Mathlib.Data.List.Forall2

/-!
# Steps that can fail

A result is taken apart step by step: a chain of steps succeeds if all of them do, and
otherwise it fails as the first one that does. Steps over the members of a list that build up a
state are the results of the single members, gathered afterwards.
-/

set_option autoImplicit false

namespace JarSigners.Steps

variable {ε α β σ : Type}

@[simp] theorem ok_bind (a : α) (next : α → Except ε β) : (Except.ok a >>= next) = next a := rfl

@[simp] theorem error_bind (e : ε) (next : α → Except ε β) :
    (Except.error e >>= next) = .error e := rfl

@[simp] theorem toOption_ok (a : α) : (Except.ok a : Except ε α).toOption = some a := rfl

@[simp] theorem toOption_error (e : ε) : (Except.error e : Except ε α).toOption = none := rfl

theorem toOption_eq_some_iff {step : Except ε α} {a : α} :
    step.toOption = some a ↔ step = .ok a := by
  cases step with
  | error e => simp
  | ok b => simp

theorem toOption_map (step : Except ε α) (f : α → β) :
    (step.map f).toOption = step.toOption.map f := by
  cases step <;> rfl

theorem toOption_bind (step : Except ε α) (next : α → Except ε β) :
    (step >>= next).toOption = step.toOption.bind fun a => (next a).toOption := by
  cases step <;> rfl

@[simp] theorem toOption_mapError {δ : Type} (step : Except ε α) (f : ε → δ) :
    (step.mapError f).toOption = step.toOption := by
  cases step <;> rfl

/-- Two steps succeed if the first does and then the second. -/
theorem bind_eq_ok_iff {step : Except ε α} {next : α → Except ε β} {b : β} :
    (step >>= next) = .ok b ↔ ∃ a, step = .ok a ∧ next a = .ok b := by
  cases step with
  | error e => simp
  | ok a => simp

theorem map_eq_ok_iff {step : Except ε α} {f : α → β} {b : β} :
    step.map f = .ok b ↔ ∃ a, step = .ok a ∧ f a = b := by
  cases step with
  | error e => simp [Except.map]
  | ok a => simp [Except.map]

/-- Why a step fails, if it does. -/
def failure? : Except ε α → Option ε
  | .error e => some e
  | .ok _ => none

@[simp] theorem failure?_ok (a : α) : failure? (Except.ok a : Except ε α) = none := rfl

@[simp] theorem failure?_error (e : ε) : failure? (Except.error e : Except ε α) = some e := rfl

theorem failure?_eq_some_iff {step : Except ε α} {e : ε} :
    failure? step = some e ↔ step = .error e := by
  cases step with
  | error e' => simp
  | ok a => simp

theorem failure?_eq_none_iff {step : Except ε α} :
    failure? step = none ↔ ∃ a, step = .ok a := by
  cases step with
  | error e => simp
  | ok a => simp

theorem failure?_map (step : Except ε α) (f : α → β) :
    failure? (step.map f) = failure? step := by
  cases step <;> rfl

/-- Steps over a list fail as the first member that does. -/
theorem failure?_mapM (f : α → Except ε β) (xs : List α) :
    failure? (xs.mapM f) = xs.findSome? fun x => failure? (f x) := by
  induction xs with
  | nil => rfl
  | cons x xs ih =>
    rw [List.mapM_cons, List.findSome?_cons]
    cases hx : f x with
    | error e => rfl
    | ok y =>
      rw [failure?, ← ih]
      cases xs.mapM f <;> rfl

/-- Gathering results into a state on the way is gathering them at the end. -/
theorem foldlM_eq_map_mapM (f : α → Except ε β) (gather : σ → β → σ) (xs : List α) (s : σ) :
    xs.foldlM (fun s x => do let y ← f x; .ok (gather s y)) s =
      (xs.mapM f).map fun ys => ys.foldl gather s := by
  induction xs generalizing s with
  | nil => rfl
  | cons x xs ih =>
    rw [List.foldlM_cons, List.mapM_cons]
    cases hx : f x with
    | error e => rfl
    | ok y =>
      have hrest := ih (gather s y)
      cases hxs : xs.mapM f with
      | error e =>
        rw [hxs] at hrest
        exact hrest
      | ok ys =>
        rw [hxs] at hrest
        exact hrest

/-- Of numbered results in order, the first that fails is the one of the smallest number. -/
theorem findSome?_failure?_iff {xs : List (Nat × Except ε α)} {e : ε}
    (h : (xs.map Prod.fst).Pairwise (· < ·)) :
    (xs.findSome? fun x => failure? x.2) = some e ↔
      ∃ n, (n, .error e) ∈ xs ∧ ∀ k other, (k, .error other) ∈ xs → n ≤ k := by
  induction xs with
  | nil => simp
  | cons x xs ih =>
    obtain ⟨m, result⟩ := x
    rw [List.map_cons, List.pairwise_cons] at h
    obtain ⟨hfirst, hrest⟩ := h
    rw [List.findSome?_cons]
    cases result with
    | ok a => simpa using ih hrest
    | error d =>
      simp only [failure?_error, Option.some.injEq]
      constructor
      · rintro rfl
        refine ⟨m, List.mem_cons_self, fun k other hk => ?_⟩
        obtain hk | hk := List.mem_cons.1 hk
        · exact Nat.le_of_eq (Prod.mk.inj hk).1.symm
        · exact Nat.le_of_lt (hfirst k (List.mem_map_of_mem hk))
      · rintro ⟨n, hn, hleast⟩
        have hle := hleast m d List.mem_cons_self
        obtain hn | hn := List.mem_cons.1 hn
        · exact (Except.error.inj (Prod.mk.inj hn).2).symm
        · have hlt := hfirst n (List.mem_map_of_mem hn)
          omega

/-- A step for each member of a list succeeds for the list if it does for every member. -/
theorem exists_mapM_eq_ok_iff {f : α → Except ε β} {xs : List α} :
    (∃ ys, xs.mapM f = .ok ys) ↔ ∀ x ∈ xs, ∃ y, f x = .ok y := by
  induction xs with
  | nil => simp [pure, Except.pure]
  | cons x xs ih =>
    rw [List.forall_mem_cons, ← ih]
    simp only [List.mapM_cons, bind_eq_ok_iff]
    constructor
    · rintro ⟨_, y, hy, ys, hys, _⟩
      exact ⟨⟨y, hy⟩, ys, hys⟩
    · rintro ⟨⟨y, hy⟩, ys, hys⟩
      exact ⟨y :: ys, y, hy, ys, hys, rfl⟩

/-- The results for the members of a list, in order. -/
theorem forall₂_of_mapM_eq_ok {f : α → Except ε β} {xs : List α} {ys : List β}
    (h : xs.mapM f = .ok ys) : List.Forall₂ (fun x y => f x = .ok y) xs ys := by
  induction xs generalizing ys with
  | nil =>
    cases h
    exact .nil
  | cons x xs ih =>
    rw [List.mapM_cons] at h
    obtain ⟨y, hy, h⟩ := bind_eq_ok_iff.1 h
    obtain ⟨rest, hrest, h⟩ := bind_eq_ok_iff.1 h
    cases h
    exact .cons hy (ih hrest)

/-- Where single steps succeed with results of what is chosen for a member, steps over a list
succeed with the results of what is chosen for all its members. -/
theorem mapM_eq_ok_iff_forall₂ {γ : Type} {f : α → Except ε β} {chosen : α → γ → Prop} {g : γ → β}
    (h : ∀ x y, f x = .ok y ↔ ∃ c, chosen x c ∧ y = g c) {xs : List α} {ys : List β} :
    xs.mapM f = .ok ys ↔ ∃ cs, List.Forall₂ chosen xs cs ∧ ys = cs.map g := by
  constructor
  · intro hall
    have hsteps := forall₂_of_mapM_eq_ok hall
    clear hall
    induction hsteps with
    | nil => exact ⟨[], .nil, rfl⟩
    | cons hx _ ih =>
      obtain ⟨c, hc, rfl⟩ := (h _ _).1 hx
      obtain ⟨cs, hcs, rfl⟩ := ih
      exact ⟨c :: cs, .cons hc hcs, rfl⟩
  · rintro ⟨cs, hchosen, rfl⟩
    induction hchosen with
    | nil => rfl
    | cons hx _ ih =>
      rw [List.mapM_cons, (h _ _).2 ⟨_, hx, rfl⟩, ok_bind, ih]
      rfl

/-- Steps over a list fail as the first member that fails, behind members that succeed. -/
theorem mapM_eq_error_iff {f : α → Except ε β} {xs : List α} {e : ε} :
    xs.mapM f = .error e ↔ ∃ before x after, xs = before ++ x :: after ∧
      (∀ y ∈ before, ∃ r, f y = .ok r) ∧ f x = .error e := by
  rw [← failure?_eq_some_iff, failure?_mapM, List.findSome?_eq_some_iff]
  simp only [failure?_eq_some_iff, failure?_eq_none_iff]
  constructor
  · rintro ⟨before, x, after, hsplit, hfails, hbefore⟩
    exact ⟨before, x, after, hsplit, hbefore, hfails⟩
  · rintro ⟨before, x, after, hsplit, hbefore, hfails⟩
    exact ⟨before, x, after, hsplit, hfails, hbefore⟩

/-- Steps that come out the same member by member come out the same for the lists. -/
theorem mapM_eq_of_forall₂ {f : α → Except ε β} {xs ys : List α}
    (h : List.Forall₂ (fun x y => f x = f y) xs ys) : xs.mapM f = ys.mapM f := by
  induction h with
  | nil => rfl
  | cons heq _ ih => rw [List.mapM_cons, List.mapM_cons, heq, ih]

/-- Steps that come out the same member by member, but for why they fail, come out the same for
the lists. -/
theorem toOption_mapM_congr {γ : Type} {f : α → Except ε β} {g : γ → Except ε β} {xs : List α}
    {ys : List γ} (h : List.Forall₂ (fun x y => (f x).toOption = (g y).toOption) xs ys) :
    (xs.mapM f).toOption = (ys.mapM g).toOption := by
  induction h with
  | nil => rfl
  | @cons x y xs ys hxy _ ih =>
    rw [List.mapM_cons, List.mapM_cons]
    cases hx : f x with
    | error e =>
      cases hy : g y with
      | error e' => rfl
      | ok b => simp [hx, hy] at hxy
    | ok a =>
      cases hy : g y with
      | error e' => simp [hx, hy] at hxy
      | ok b =>
        obtain rfl : a = b := by simpa [hx, hy] using hxy
        cases hxs : xs.mapM f <;> cases hys : ys.mapM g <;> simp_all

/-- What is made of each result may as well be made of all of them. -/
theorem mapM_map_result {γ : Type} (f : α → Except ε β) (g : β → γ) (xs : List α) :
    (xs.mapM fun x => (f x).map g) = (xs.mapM f).map (List.map g) := by
  induction xs with
  | nil => rfl
  | cons x xs ih =>
    rw [List.mapM_cons, List.mapM_cons, ih]
    cases f x with
    | error e => rfl
    | ok y => cases xs.mapM f <;> rfl

/-- Every member of two lists that are related in order has its fellow in the other one. -/
theorem exists_fellow {R : α → β → Prop} {xs : List α} {ys : List β} (h : List.Forall₂ R xs ys) :
    (∀ x ∈ xs, ∃ y ∈ ys, R x y) ∧ ∀ y ∈ ys, ∃ x ∈ xs, R x y := by
  induction h with
  | nil => simp
  | @cons x y xs ys hxy _ ih =>
    obtain ⟨hleft, hright⟩ := ih
    constructor
    · refine List.forall_mem_cons.2 ⟨⟨y, List.mem_cons_self, hxy⟩, fun z hz => ?_⟩
      obtain ⟨w, hw, hzw⟩ := hleft z hz
      exact ⟨w, List.mem_cons_of_mem _ hw, hzw⟩
    · refine List.forall_mem_cons.2 ⟨⟨x, List.mem_cons_self, hxy⟩, fun z hz => ?_⟩
      obtain ⟨w, hw, hwz⟩ := hright z hz
      exact ⟨w, List.mem_cons_of_mem _ hw, hwz⟩

/-- Every result of steps over a list is one of a member. -/
theorem exists_of_mem_of_mapM_eq_ok {f : α → Except ε β} {xs : List α} {ys : List β}
    (h : xs.mapM f = .ok ys) {y : β} (hy : y ∈ ys) : ∃ x ∈ xs, f x = .ok y :=
  (exists_fellow (forall₂_of_mapM_eq_ok h)).2 y hy

end JarSigners.Steps

namespace JarSigners

variable {α : Type}

@[simp] theorem untrusted_ok (a : α) : untrusted (.ok a) = .ok a := rfl

@[simp] theorem untrusted_error (failure : TrustFailure) :
    untrusted (.error failure : Except TrustFailure α) = .error (.untrusted failure) := rfl

theorem untrusted_eq_ok_iff {result : Except TrustFailure α} {a : α} :
    untrusted result = .ok a ↔ result = .ok a := by
  cases result with
  | error f => simp [untrusted, Except.mapError]
  | ok b => simp [untrusted, Except.mapError]

end JarSigners
