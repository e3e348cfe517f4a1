import JarSigners.Certificate.Chain
import Mathlib.Data.List.Dedup
import Mathlib.Data.List.Perm.Subperm

/-!
# Chains come to an end

A chain grows certificate by certificate. The next one is the first of the pool that has the name
of the last one's issuer and is not in the chain yet, so the certificates that are left become
fewer, even where names form a cycle. The chain of a leaf is what growing from the leaf ends with
(`grows_climb`), and whatever a chain has at one step it keeps to the end (`Grows.linked`).
-/

set_option autoImplicit false

namespace JarSigners.Chain

variable {pool certificates front full : List Certificate} {leaf current next : Certificate}

/-! ### One step -/

/-- The next certificate is the first of the pool that has the name of the current one's issuer and
is not in the chain. -/
def Follows (pool certificates : List Certificate) (current next : Certificate) : Prop :=
  ∃ earlier later, pool = earlier ++ next :: later ∧
    next.body.subject = current.body.issuer ∧ next ∉ certificates ∧
    ∀ c ∈ earlier, c.body.subject = current.body.issuer → c ∈ certificates

/-- The certificate that is added to a chain. None is added behind one that names itself as its
issuer. -/
def next? (pool certificates : List Certificate) : Option Certificate :=
  certificates.getLast?.bind fun current =>
    if current.isSelfIssued then none else pool.find? (continues current certificates)

theorem isSelfIssued_iff : current.isSelfIssued = true ↔
    current.body.issuer = current.body.subject := by
  unfold Certificate.isSelfIssued
  exact decide_eq_true_iff

theorem continues_iff : continues current certificates next = true ↔
    next.body.subject = current.body.issuer ∧ next ∉ certificates := by
  simp [continues]

theorem find?_continues_eq_some_iff :
    pool.find? (continues current certificates) = some next ↔
      Follows pool certificates current next := by
  rw [List.find?_eq_some_iff_append, continues_iff]
  constructor
  · intro h
    obtain ⟨⟨hsubject, hfresh⟩, earlier, later, hsplit, hearlier⟩ := h
    refine ⟨earlier, later, hsplit, hsubject, hfresh, fun c hc hname => ?_⟩
    by_contra hnot
    have hrefused := hearlier c hc
    rw [continues_iff.2 ⟨hname, hnot⟩] at hrefused
    cases hrefused
  · intro h
    obtain ⟨earlier, later, hsplit, hsubject, hfresh, hearlier⟩ := h
    refine ⟨⟨hsubject, hfresh⟩, earlier, later, hsplit, fun c hc => ?_⟩
    rw [Bool.not_eq_true', Bool.eq_false_iff]
    intro hcontinues
    obtain ⟨hname, hnot⟩ := continues_iff.1 hcontinues
    exact hnot (hearlier c hc hname)

theorem next?_append_singleton : next? pool (front ++ [current]) =
    if current.isSelfIssued then none
    else pool.find? (continues current (front ++ [current])) := by
  rw [next?, List.getLast?_concat, Option.bind_some]

theorem next?_eq_some_iff : next? pool (front ++ [current]) = some next ↔
    current.body.issuer ≠ current.body.subject ∧
      Follows pool (front ++ [current]) current next := by
  rw [next?_append_singleton, ← find?_continues_eq_some_iff, ne_eq, ← isSelfIssued_iff]
  by_cases h : current.isSelfIssued = true
  · simp [h]
  · simp [h]

theorem next?_eq_none_iff : next? pool (front ++ [current]) = none ↔
    current.body.issuer = current.body.subject ∨
      ∀ c ∈ pool, c.body.subject = current.body.issuer → c ∈ front ++ [current] := by
  rw [next?_append_singleton, ← isSelfIssued_iff]
  by_cases h : current.isSelfIssued = true
  · simp [h]
  · simp only [h, Bool.false_eq_true, if_false, false_or, List.find?_eq_none, continues_iff,
      not_and, not_not]

/-- What is added comes from the pool and is not in the chain. -/
theorem mem_of_next? (h : next? pool certificates = some next) :
    next ∈ pool ∧ next ∉ certificates := by
  obtain rfl | ⟨front, current, rfl⟩ := List.eq_nil_or_concat certificates
  · cases h
  · rw [List.concat_eq_append] at h ⊢
    obtain ⟨-, earlier, later, rfl, -, hfresh, -⟩ := next?_eq_some_iff.1 h
    exact ⟨by simp, hfresh⟩

/-! ### The end -/

/-- What becomes of a chain when certificates are added as long as there is one to add. -/
inductive Grows (pool : List Certificate) : List Certificate → List Certificate → Prop
  | done {certificates : List Certificate} (h : next? pool certificates = none) :
    Grows pool certificates certificates
  | more {certificates full : List Certificate} {next : Certificate}
    (h : next? pool certificates = some next) (hrest : Grows pool (certificates ++ [next]) full) :
    Grows pool certificates full

/-- A chain grows to one end only. -/
theorem Grows.unique {other : List Certificate} (h : Grows pool certificates full)
    (h' : Grows pool certificates other) : other = full := by
  induction h with
  | done hnone =>
    cases h' with
    | done => rfl
    | more hsome => rw [hnone] at hsome; cases hsome
  | more hsome _ ih =>
    cases h' with
    | done hnone => rw [hnone] at hsome; cases hsome
    | more hsome' hrest' =>
      rw [hsome] at hsome'
      cases hsome'
      exact ih hrest'

/-- The certificates of the pool that are not in the chain. -/
def unused (pool certificates : List Certificate) : List Certificate :=
  pool.filter fun c => !certificates.contains c

theorem length_unused_lt (hpool : next ∈ pool) (hfresh : next ∉ certificates) :
    (unused pool (certificates ++ [next])).length < (unused pool certificates).length := by
  have hfewer : unused pool (certificates ++ [next]) =
      (unused pool certificates).filter fun c => c != next := by
    unfold unused
    rw [List.filter_filter]
    apply List.filter_congr
    intro c _
    by_cases hc : c = next <;> simp [hc]
  rw [hfewer, List.length_filter_lt_length_iff_exists]
  exact ⟨next, List.mem_filter.2 ⟨hpool, by simpa using hfresh⟩, by simp⟩

/-- In what order the certificates of the chain are kept does not matter. -/
theorem continues_congr {used : List Certificate} (h : ∀ c, c ∈ used ↔ c ∈ certificates) :
    continues current used = continues current certificates := by
  funext candidate
  rw [Bool.eq_iff_iff, continues_iff, continues_iff, h]

/-- As many steps as there are unused certificates are enough. -/
theorem grows_issuersAbove {steps : Nat} {used : List Certificate}
    (hused : ∀ c, c ∈ used ↔ c ∈ front ++ [current])
    (hsteps : (unused pool (front ++ [current])).length ≤ steps) :
    Grows pool (front ++ [current]) (front ++ current :: issuersAbove pool steps current used) := by
  induction steps generalizing front current used with
  | zero =>
    have hall : unused pool (front ++ [current]) = [] :=
      List.length_eq_zero_iff.1 (Nat.le_zero.1 hsteps)
    apply Grows.done
    rw [next?_eq_none_iff]
    refine Or.inr fun c hc _ => ?_
    have hkept := List.filter_eq_nil_iff.1 hall c hc
    simpa only [Bool.not_eq_true', Bool.not_eq_false, List.contains_iff_mem] using hkept
  | succ steps ih =>
    rw [issuersAbove, continues_congr hused]
    by_cases hself : current.isSelfIssued = true
    · rw [if_pos hself]
      apply Grows.done
      rw [next?_append_singleton, if_pos hself]
    · rw [if_neg hself]
      have hnext : next? pool (front ++ [current]) =
          pool.find? (continues current (front ++ [current])) := by
        rw [next?_append_singleton, if_neg hself]
      cases hfind : pool.find? (continues current (front ++ [current])) with
      | none => exact Grows.done (hnext.trans hfind)
      | some next =>
        obtain ⟨hpool, hfresh⟩ := mem_of_next? (hnext.trans hfind)
        have hfewer := length_unused_lt hpool hfresh
        have hused' : ∀ c, c ∈ next :: used ↔ c ∈ (front ++ [current]) ++ [next] := by
          intro c
          rw [List.mem_cons, hused, List.mem_append (s := front ++ [current]), List.mem_singleton,
            or_comm]
        have hrest := ih hused' (by omega)
        have hwhole : (front ++ [current]) ++ next :: issuersAbove pool steps next (next :: used) =
            front ++ current :: next :: issuersAbove pool steps next (next :: used) := by
          rw [List.append_assoc, List.singleton_append]
        rw [hwhole] at hrest
        exact Grows.more (hnext.trans hfind) hrest

/-- The chain of a leaf is what growing from the leaf ends with. -/
theorem grows_climb (pool : List Certificate) (leaf : Certificate) :
    Grows pool [leaf] (climb pool leaf).certificates := by
  have hused : ∀ c, c ∈ [leaf] ↔ c ∈ [] ++ [leaf] := by simp
  exact grows_issuersAbove hused (List.length_filter_le _ _)

/-! ### What every chain on the way has -/

/-- A chain from a leaf, of certificates of the pool that are all different, each of which follows
the one before. -/
structure Linked (pool : List Certificate) (leaf : Certificate) (certificates : List Certificate) :
    Prop where
  head : certificates.head? = some leaf
  embedded : ∀ c ∈ certificates, c ∈ pool
  nodup : certificates.Nodup
  follows : ∀ before current next after, certificates = before ++ current :: next :: after →
    current.body.issuer ≠ current.body.subject ∧ Follows pool (before ++ [current]) current next

theorem linked_leaf (h : leaf ∈ pool) : Linked pool leaf [leaf] where
  head := rfl
  embedded := by simpa using h
  nodup := List.nodup_singleton leaf
  follows := by
    intro before current next after hsplit
    have hlength := congrArg List.length hsplit
    simp at hlength
    omega

/-- One more certificate keeps the links. -/
theorem Linked.append (h : Linked pool leaf certificates) (hnext : next? pool certificates = some next) :
    Linked pool leaf (certificates ++ [next]) where
  head := by
    rw [List.head?_append, h.head]
    rfl
  embedded := by
    intro c hc
    obtain hc | hc := List.mem_append.1 hc
    · exact h.embedded c hc
    · rw [List.mem_singleton.1 hc]
      exact (mem_of_next? hnext).1
  nodup := by
    rw [List.nodup_append]
    refine ⟨h.nodup, List.nodup_singleton next, fun c hc d hd => ?_⟩
    rw [List.mem_singleton.1 hd]
    exact fun heq => (mem_of_next? hnext).2 (heq ▸ hc)
  follows := by
    intro before current following after hsplit
    obtain rfl | ⟨after, last, rfl⟩ := List.eq_nil_or_concat after
    · -- The new certificate is the one that follows.
      have hsplit' : certificates ++ [next] = (before ++ [current]) ++ [following] := by
        simpa using hsplit
      obtain ⟨rfl, hlast⟩ := List.append_inj' hsplit' rfl
      cases hlast
      exact next?_eq_some_iff.1 hnext
    · have hsplit' : certificates ++ [next] =
          (before ++ current :: following :: after) ++ [last] := by
        simpa using hsplit
      obtain ⟨hfront, -⟩ := List.append_inj' hsplit' rfl
      exact h.follows before current following after hfront

/-- So the end has them, and nothing can be added there. -/
theorem Grows.linked (hgrows : Grows pool certificates full) (h : Linked pool leaf certificates) :
    Linked pool leaf full ∧ next? pool full = none := by
  induction hgrows with
  | done hnone => exact ⟨h, hnone⟩
  | more hsome _ ih => exact ih (h.append hsome)

/-- A chain that is linked has at most as many certificates as there are different ones. -/
theorem Linked.length_le (h : Linked pool leaf certificates) :
    certificates.length ≤ pool.dedup.length := by
  apply List.Subperm.length_le
  apply h.nodup.subperm
  intro c hc
  exact List.mem_dedup.2 (h.embedded c hc)

/-- Growing from a leaf of the pool comes to an end, and its only end is the chain of the leaf. This
begins with the leaf and has certificates of the pool, none twice. Each of them but the last has an
issuer other than itself and is followed by the first certificate with that issuer's name that is
not in the chain yet; the last one names itself as its issuer, or no certificate is left that has
the issuer's name. -/
theorem growth_ends_with_linked_chain (pool : List Certificate) (leaf : Certificate)
    (h : leaf ∈ pool) :
    Grows pool [leaf] (climb pool leaf).certificates ∧
    (∀ full, Grows pool [leaf] full → full = (climb pool leaf).certificates) ∧
    (climb pool leaf).certificates.head? = some leaf ∧
    (∀ c ∈ (climb pool leaf).certificates, c ∈ pool) ∧
    (climb pool leaf).certificates.Nodup ∧
    (climb pool leaf).certificates.length ≤ pool.dedup.length ∧
    (∀ before current next after,
      (climb pool leaf).certificates = before ++ current :: next :: after →
        current.body.issuer ≠ current.body.subject ∧
        Follows pool (before ++ [current]) current next) ∧
    ∀ last, (climb pool leaf).certificates.getLast? = some last →
      last.body.issuer = last.body.subject ∨
      ∀ c ∈ pool, c.body.subject = last.body.issuer → c ∈ (climb pool leaf).certificates := by
  have hgrows := grows_climb pool leaf
  obtain ⟨hlinked, hnone⟩ := hgrows.linked (linked_leaf h)
  refine ⟨hgrows, fun full hfull => hgrows.unique hfull, hlinked.head, hlinked.embedded,
    hlinked.nodup, hlinked.length_le, hlinked.follows, fun last hlast => ?_⟩
  obtain ⟨front, hfront⟩ := List.getLast?_eq_some_iff.1 hlast
  rw [hfront] at hnone ⊢
  exact next?_eq_none_iff.1 hnone

/-- A certificate with a serial number of one octet, a subject and an issuer named by one letter
each, signed by nobody. -/
def lettered (serial subject issuer : UInt8) : Certificate :=
  let named (letter : UInt8) : DistinguishedName :=
    ⟨[[⟨.ofArcs 2 5 [4, 3], ⟨Asn1.tagUtf8, [letter]⟩⟩]]⟩
  let algorithm : AlgorithmIdentifier := ⟨.ofArcs 1 2 [840, 10045, 4, 3, 2], none⟩
  let time : Asn1.Element := ⟨Asn1.tagUtcTime, Bytes.ofAscii "240101000000Z"⟩
  ⟨⟨2, ⟨[serial]⟩, algorithm, named issuer, time, time, named subject, ⟨algorithm, ⟨0, []⟩⟩, none,
    none, none⟩, algorithm, ⟨0, []⟩⟩

/-- Names that form a cycle, two certificates with one subject, and one certificate given twice: the
chain goes round once and stops when all certificates with the name it needs are used. -/
theorem chain_goes_round_once :
    let leaf := lettered 1 65 66
    let first := lettered 2 66 65
    let second := lettered 3 65 66
    let pool := [first, leaf, second, first]
    leaf ∈ pool ∧ (climb pool leaf).certificates = [leaf, first, second] ∧
      Grows pool [leaf] [leaf, first, second] ∧ [leaf, first, second].length ≤ pool.dedup.length ∧
      Follows pool [leaf, first] first second ∧
      ∀ c ∈ pool, c.body.subject = second.body.issuer → c ∈ [leaf, first, second] := by
  intro leaf first second pool
  have hleaf : leaf ∈ pool := by decide
  have hclimb : (climb pool leaf).certificates = [leaf, first, second] := by decide +kernel
  obtain ⟨hgrows, -, -, -, -, hlength, hfollows, hlast⟩ :=
    growth_ends_with_linked_chain pool leaf hleaf
  rw [hclimb] at hgrows hlength hfollows hlast
  have hopen : second.body.issuer ≠ second.body.subject := by decide
  exact ⟨hleaf, hclimb, hgrows, hlength, (hfollows [leaf] first second [] rfl).2,
    (hlast second rfl).resolve_left hopen⟩

end JarSigners.Chain
