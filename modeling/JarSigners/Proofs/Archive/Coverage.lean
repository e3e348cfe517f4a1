import JarSigners.Archive.Signatures
import Mathlib.Data.List.Induction
import Mathlib.Data.List.Nodup

/-!
# Who signs a name

While blocks are verified, signers are kept in a table and names point into it. What that comes
to for one name is a walk: through the blocks in order, through the chains of each block that
signs the name, keeping first occurrences (`Records`). The step lemma is `Records.addSigner`;
`records_ofBlocks` carries it through all blocks.
-/

set_option autoImplicit false

namespace JarSigners

/-! ### First occurrences -/

namespace SignatureBlock

section Firsts

variable {α : Type} [BEq α] [LawfulBEq α]

/-- A further member counts unless it has come before. -/
theorem firsts_concat (items : List α) (x : α) :
    firsts (items ++ [x]) = if x ∈ firsts items then firsts items else firsts items ++ [x] := by
  simp [firsts]

theorem mem_firsts {items : List α} {x : α} : x ∈ firsts items ↔ x ∈ items := by
  induction items using List.reverseRecOn with
  | nil => rfl
  | append_singleton items y ih =>
    rw [firsts_concat]
    split
    next hy =>
      rw [List.mem_append, ← ih, List.mem_singleton]
      constructor
      · exact Or.inl
      · rintro (hx | rfl)
        · exact hx
        · exact hy
    next => rw [List.mem_append, List.mem_append, ih]

end Firsts

end SignatureBlock

/-! ### The table of names -/

namespace Coverage

theorem signersOf_eq_nil {c : Coverage} {name : String}
    (h : c.find? (fun known => known.1 = name) = none) : c.signersOf name = [] := by
  rw [signersOf, h]

theorem signersOf_eq {c : Coverage} {name : String} {known : String × List Nat}
    (h : c.find? (fun known => known.1 = name) = some known) : c.signersOf name = known.2 := by
  rw [signersOf, h]

/-- A table whose entries change but keep their names has the same entry for a name, changed. -/
theorem find?_map {f : String × List Nat → String × List Nat} (hf : ∀ known, (f known).1 = known.1)
    (c : Coverage) (name : String) :
    (c.map f).find? (fun known => known.1 = name) =
      (c.find? fun known => known.1 = name).map f := by
  simp only [List.find?_map, Function.comp_def, hf]

/-- A name that has signers gets one more, unless it has that one. -/
theorem signersOf_add_known {signer : Nat} {c : Coverage} {name : String}
    (hknown : (c.any fun known => known.1 = name) = true) (other : String) :
    (c.add signer name).signersOf other =
      if other = name ∧ signer ∉ c.signersOf name then c.signersOf name ++ [signer]
      else c.signersOf other := by
  rw [add, if_pos hknown, signersOf, find?_map]
  · cases hfound : c.find? (fun known => known.1 = other) with
    | none =>
      have hne : other ≠ name := by
        rintro rfl
        rw [List.find?_eq_none] at hfound
        obtain ⟨known, hmem, hname⟩ := List.any_eq_true.1 hknown
        exact hfound known hmem hname
      simp [hne, signersOf_eq_nil hfound]
    | some known =>
      have hname : known.1 = other := by simpa using List.find?_some hfound
      rw [signersOf_eq hfound]
      by_cases hother : other = name
      · subst hother
        rw [signersOf_eq hfound]
        by_cases hsigner : signer ∈ known.2 <;> simp [hname, hsigner]
      · simp [hname, hother]
  · intro known
    split
    next hchange => simp_all
    next => rfl

/-- A name that is new gets its first signer. -/
theorem signersOf_add_new {signer : Nat} {c : Coverage} {name : String}
    (hnew : (c.any fun known => known.1 = name) = false) (other : String) :
    (c.add signer name).signersOf other =
      if other = name ∧ signer ∉ c.signersOf name then c.signersOf name ++ [signer]
      else c.signersOf other := by
  have hnone : c.find? (fun known => known.1 = name) = none := by
    rw [List.find?_eq_none]
    exact List.any_eq_false.1 hnew
  rw [add, if_neg (Bool.not_eq_true _ ▸ hnew)]
  by_cases hother : other = name
  · subst hother
    simp [signersOf, List.find?_append, hnone]
  · have hlast : [(name, [signer])].find? (fun known => known.1 = other) = none := by
      simp [Ne.symm hother]
    simp [signersOf, List.find?_append, hlast, hother]

/-- Adding a signer to a name changes that name alone. -/
theorem signersOf_add (signer : Nat) (c : Coverage) (name other : String) :
    (c.add signer name).signersOf other =
      if other = name ∧ signer ∉ c.signersOf name then c.signersOf name ++ [signer]
      else c.signersOf other := by
  cases h : c.any fun known => known.1 = name with
  | true => exact signersOf_add_known h other
  | false => exact signersOf_add_new h other

/-- Adding a signer to some names adds it to each of them that does not have it. -/
theorem signersOf_foldl_add (signer : Nat) (names : List String) (c : Coverage)
    (name : String) :
    (names.foldl (add signer) c).signersOf name =
      if name ∈ names ∧ signer ∉ c.signersOf name then c.signersOf name ++ [signer]
      else c.signersOf name := by
  induction names generalizing c with
  | nil => simp
  | cons head rest ih =>
    rw [List.foldl_cons, ih, signersOf_add]
    by_cases hhead : name = head
    · subst hhead
      by_cases hsigner : signer ∈ c.signersOf name <;> simp [hsigner]
    · simp [hhead]

end Coverage

/-! ### Signers by their place in the table -/

namespace Signatures

/-- The chains that a name's places in the table stand for. -/
def coveringChains (s : Signatures) (name : String) : List Chain :=
  (s.coverage.signersOf name).filterMap fun i => s.signers[i]?

/-- The table and the places in it say that for each name the chains `heard name` have come,
in that order and perhaps repeatedly. -/
structure Records (s : Signatures) (heard : String → List Chain) : Prop where
  distinct : s.signers.Nodup
  inRange : ∀ name, ∀ i ∈ s.coverage.signersOf name, i < s.signers.length
  chains : ∀ name, s.coveringChains name = SignatureBlock.firsts (heard name)

theorem Records.congr {s : Signatures} {heard heard' : String → List Chain}
    (h : s.Records heard) (heq : ∀ name, heard name = heard' name) : s.Records heard' :=
  funext heq ▸ h

theorem records_none : none.Records fun _ => [] where
  distinct := List.nodup_nil
  inRange := by simp [none, Coverage.signersOf]
  chains := by simp [coveringChains, none, Coverage.signersOf, SignatureBlock.firsts]

theorem position_coverage (s : Signatures) (chain : Chain) :
    (s.position chain).2.coverage = s.coverage := by
  unfold position
  split <;> rfl

/-- The place of a chain holds it, no other place changes, and no chain has two. -/
theorem position_spec (s : Signatures) (chain : Chain) (hdistinct : s.signers.Nodup) :
    (s.position chain).2.signers[(s.position chain).1]? = some chain ∧
    (∃ more, (s.position chain).2.signers = s.signers ++ more) ∧
    (s.position chain).2.signers.Nodup := by
  unfold position
  cases hfound : s.signers.idxOf? chain with
  | some known =>
    obtain ⟨hlt, hget, _⟩ := List.idxOf?_eq_some_iff.1 hfound
    have hat : s.signers[known]? = some chain := by
      rw [List.getElem?_eq_getElem hlt, hget]
    exact ⟨hat, ⟨[], by simp⟩, hdistinct⟩
  | none =>
    have hnew : chain ∉ s.signers := List.idxOf?_eq_none_iff.1 hfound
    have hnodup : (s.signers ++ [chain]).Nodup := by
      rw [← List.concat_eq_append]
      exact List.Nodup.concat hnew hdistinct
    exact ⟨by simp, ⟨[chain], rfl⟩, hnodup⟩

theorem addSigner_signers (s : Signatures) (names : List String) (chain : Chain) :
    (s.addSigner names chain).signers = (s.position chain).2.signers := rfl

theorem signersOf_addSigner (s : Signatures) (names : List String) (chain : Chain)
    (name : String) :
    (s.addSigner names chain).coverage.signersOf name =
      if name ∈ names ∧ (s.position chain).1 ∉ s.coverage.signersOf name then
        s.coverage.signersOf name ++ [(s.position chain).1]
      else s.coverage.signersOf name := by
  rw [← s.position_coverage chain]
  exact Coverage.signersOf_foldl_add _ names _ name

/-- A place stands among those of a name exactly if its chain is among the chains of the name. -/
theorem mem_signersOf_iff {s : Signatures} {place : Nat} {chain : Chain}
    (hdistinct : s.signers.Nodup) (hplace : s.signers[place]? = some chain) (name : String) :
    place ∈ s.coverage.signersOf name ↔ chain ∈ s.coveringChains name := by
  simp only [coveringChains, List.mem_filterMap]
  constructor
  · exact fun hmem => ⟨place, hmem, hplace⟩
  · rintro ⟨i, hmem, hi⟩
    obtain ⟨hilt, higet⟩ := List.getElem?_eq_some_iff.1 hi
    obtain ⟨hplt, hpget⟩ := List.getElem?_eq_some_iff.1 hplace
    have heq : i = place := (List.Nodup.getElem_inj_iff hdistinct).1 (higet.trans hpget.symm)
    exact heq ▸ hmem

/-- Longer tables show the same chains at the places in range. -/
theorem filterMap_append_eq {places : List Nat} {signers more : List Chain}
    (hrange : ∀ i ∈ places, i < signers.length) :
    (places.filterMap fun i => (signers ++ more)[i]?) =
      places.filterMap fun i => signers[i]? := by
  apply List.filterMap_congr
  intro i hi
  exact List.getElem?_append_left (hrange i hi)

theorem Records.addSigner_inRange {s : Signatures} {heard : String → List Chain}
    (h : s.Records heard) (names : List String) (chain : Chain) (name : String) :
    ∀ i ∈ (s.addSigner names chain).coverage.signersOf name,
      i < (s.addSigner names chain).signers.length := by
  obtain ⟨hplace, ⟨more, hmore⟩, _⟩ := s.position_spec chain h.distinct
  intro i hi
  rw [addSigner_signers]
  rw [signersOf_addSigner] at hi
  have hold : i ∈ s.coverage.signersOf name → i < (s.position chain).2.signers.length := by
    intro hi
    have := h.inRange name i hi
    rw [hmore, List.length_append]
    omega
  split at hi
  · rcases List.mem_append.1 hi with hi | hi
    · exact hold hi
    · rw [List.mem_singleton.1 hi]
      exact (List.getElem?_eq_some_iff.1 hplace).1
  · exact hold hi

theorem Records.addSigner_chains {s : Signatures} {heard : String → List Chain}
    (h : s.Records heard) (names : List String) (chain : Chain) (name : String) :
    (s.addSigner names chain).coveringChains name =
      SignatureBlock.firsts (heard name ++ if name ∈ names then [chain] else []) := by
  obtain ⟨hplace, ⟨more, hmore⟩, hnodup⟩ := s.position_spec chain h.distinct
  have hold : ((s.coverage.signersOf name).filterMap fun i => (s.position chain).2.signers[i]?) =
      SignatureBlock.firsts (heard name) := by
    rw [hmore, filterMap_append_eq (h.inRange name)]
    exact h.chains name
  have hknown : (s.position chain).1 ∈ s.coverage.signersOf name ↔
      chain ∈ SignatureBlock.firsts (heard name) := by
    have hiff := mem_signersOf_iff hnodup hplace name
    rwa [coveringChains, position_coverage, hold] at hiff
  rw [coveringChains, signersOf_addSigner, addSigner_signers]
  by_cases hname : name ∈ names
  · rw [if_pos hname, SignatureBlock.firsts_concat]
    by_cases hmem : chain ∈ SignatureBlock.firsts (heard name)
    · rw [if_neg (fun hnew => hnew.2 (hknown.2 hmem)), if_pos hmem, hold]
    · rw [if_pos ⟨hname, fun hi => hmem (hknown.1 hi)⟩, if_neg hmem, List.filterMap_append, hold]
      simp [hplace]
  · rw [if_neg hname, if_neg (fun hnew => hname hnew.1), List.append_nil, hold]

/-- One more signer for some names is heard for each of these names. -/
theorem Records.addSigner {s : Signatures} {heard : String → List Chain}
    (h : s.Records heard) (names : List String) (chain : Chain) :
    (s.addSigner names chain).Records fun name =>
      heard name ++ if name ∈ names then [chain] else [] where
  distinct := (s.position_spec chain h.distinct).2.2
  inRange := h.addSigner_inRange names chain
  chains := h.addSigner_chains names chain

/-- A block is heard for each name that its signature file signs. -/
theorem Records.addBlock {s : Signatures} {heard : String → List Chain} (h : s.Records heard)
    (chains : List Chain) (names : List String) :
    (s.addBlock chains names).Records fun name =>
      heard name ++ if name ∈ names then chains else [] := by
  induction chains generalizing s heard with
  | nil => exact h.congr fun name => by simp
  | cons chain rest ih =>
    refine (ih (h.addSigner names chain)).congr fun name => ?_
    by_cases hname : name ∈ names <;> simp [hname]

/-- The chains that some verified blocks bring to a name, one block after the other. -/
def broughtTo (name : String) (found : List (List Chain × List String)) : List Chain :=
  found.flatMap fun block => if name ∈ block.2 then block.1 else []

/-- After all blocks the table says what a walk through them finds. -/
theorem records_ofBlocks (found : List (List Chain × List String)) :
    (found.foldl (fun s block => s.addBlock block.1 block.2) none).Records fun name =>
      broughtTo name found := by
  induction found using List.reverseRecOn with
  | nil => exact records_none
  | append_singleton found block ih =>
    rw [List.foldl_append]
    refine (ih.addBlock block.1 block.2).congr fun name => ?_
    simp only [broughtTo, List.flatMap_append, List.flatMap_singleton]

end Signatures

end JarSigners
