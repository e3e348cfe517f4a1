import JarSigners.Proofs.Archive.History
import JarSigners.Proofs.Archive.Reading
import JarSigners.Proofs.SignatureFile.Coverage

/-!
# The tables of signers

Loading keeps two tables: the signers, each of them once, and for every name that is signed the
places of its signers among them. No place points beyond the signers, no list of places is empty
or has one twice, and names and signers are in the tables only if a block has put them there
(`Signatures.Sound`). That holds after every turn of the loop over chains (`sound_tablesAfter`),
and so of whatever an archive keeps (`sound_of_verifySignatures`); taking the signers of a name by
their places never misses one.
-/

set_option autoImplicit false

namespace JarSigners

/-! ### Names and places -/

namespace Coverage

variable {c : Coverage} {name : String} {known : String × List Nat}

/-- The names in the table. -/
def names (c : Coverage) : List String :=
  c.map Prod.fst

/-- A table that has each name once, with places, of which none comes twice. -/
structure Tidy (c : Coverage) : Prop where
  namesDiffer : c.names.Nodup
  nonempty : ∀ known ∈ c, known.2 ≠ []
  noRepeats : ∀ known ∈ c, known.2.Nodup

theorem tidy_nil : Tidy [] where
  namesDiffer := List.nodup_nil
  nonempty := by simp
  noRepeats := by simp

/-- Where each name stands once, its places are those it stands with. -/
theorem Tidy.signersOf_of_mem (h : c.Tidy) (hknown : known ∈ c) :
    c.signersOf known.1 = known.2 := by
  have hfound : c.find? (fun other => other.1 = known.1) = some known := by
    have hsome : (c.find? fun other => other.1 = known.1).isSome = true :=
      List.find?_isSome.2 ⟨known, hknown, by simp⟩
    obtain ⟨other, hother⟩ := Option.isSome_iff_exists.1 hsome
    have hname : other.1 = known.1 := by simpa using List.find?_some hother
    have hsame : other = known :=
      List.inj_on_of_nodup_map h.namesDiffer (List.mem_of_find?_eq_some hother) hknown hname
    rw [hother, hsame]
  exact signersOf_eq hfound

/-- The places of a name are those that it stands with. -/
theorem exists_of_mem_signersOf {place : Nat} (h : place ∈ c.signersOf name) :
    ∃ known ∈ c, place ∈ known.2 := by
  cases hfound : c.find? (fun known => known.1 = name) with
  | none =>
    rw [signersOf_eq_nil hfound] at h
    cases h
  | some known =>
    rw [signersOf_eq hfound] at h
    exact ⟨known, List.mem_of_find?_eq_some hfound, h⟩

theorem Tidy.mem_names_iff (h : c.Tidy) : name ∈ c.names ↔ c.signersOf name ≠ [] := by
  constructor
  · intro hname
    obtain ⟨known, hknown, rfl⟩ := List.mem_map.1 hname
    rw [h.signersOf_of_mem hknown]
    exact h.nonempty known hknown
  · intro hsome
    by_contra hname
    refine hsome (signersOf_eq_nil (List.find?_eq_none.2 fun known hknown hfound => ?_))
    exact hname (List.mem_map.2 ⟨known, hknown, by simpa using hfound⟩)

/-- What a signer that is added to a name does to the entry of the name; others stay. -/
def noteIn (signer : Nat) (name : String) (known : String × List Nat) : String × List Nat :=
  if known.1 = name && !known.2.contains signer then (name, known.2 ++ [signer]) else known

/-- Adding a signer to a name that is there changes its entry, and to a new one makes its entry. -/
theorem add_eq (signer : Nat) (c : Coverage) (name : String) :
    c.add signer name =
      if name ∈ c.names then c.map (noteIn signer name) else c ++ [(name, [signer])] := by
  have hany : (c.any fun known => known.1 = name) = true ↔ name ∈ c.names := by
    simp [names]
  rw [add]
  by_cases h : name ∈ c.names
  · rw [if_pos (hany.2 h), if_pos h]
    rfl
  · rw [if_neg (mt hany.1 h), if_neg h]

theorem noteIn_fst (signer : Nat) (name : String) (known : String × List Nat) :
    (noteIn signer name known).1 = known.1 := by
  unfold noteIn
  split
  next h => simp_all
  next => rfl

theorem noteIn_snd (signer : Nat) (name : String) (known : String × List Nat) :
    (noteIn signer name known).2 = known.2 ∨
      signer ∉ known.2 ∧ (noteIn signer name known).2 = known.2 ++ [signer] := by
  unfold noteIn
  split
  next h => exact Or.inr (by simp_all)
  next => exact Or.inl rfl

theorem Tidy.add (h : c.Tidy) (signer : Nat) (name : String) : (c.add signer name).Tidy := by
  rw [add_eq]
  by_cases hname : name ∈ c.names
  · rw [if_pos hname]
    refine ⟨?_, List.forall_mem_map.2 fun known hknown => ?_,
      List.forall_mem_map.2 fun known hknown => ?_⟩
    · have hnames : Coverage.names (c.map (noteIn signer name)) = c.names := by
        simp [names, noteIn_fst]
      rw [hnames]
      exact h.namesDiffer
    · rcases noteIn_snd signer name known with hsame | ⟨_, hmore⟩
      · rw [hsame]
        exact h.nonempty known hknown
      · rw [hmore]
        exact List.concat_ne_nil _ _
    · rcases noteIn_snd signer name known with hsame | ⟨hnew, hmore⟩
      · rw [hsame]
        exact h.noRepeats known hknown
      · rw [hmore, ← List.concat_eq_append]
        exact (h.noRepeats known hknown).concat hnew
  · rw [if_neg hname]
    refine ⟨?_, ?_, ?_⟩
    · have hnames : Coverage.names (c ++ [(name, [signer])]) = c.names.concat name := by
        simp [names]
      rw [hnames]
      exact h.namesDiffer.concat hname
    · simpa [or_imp, forall_and] using h.nonempty
    · simpa [or_imp, forall_and] using h.noRepeats

theorem Tidy.foldl_add (h : c.Tidy) (signer : Nat) (names : List String) :
    (names.foldl (Coverage.add signer) c).Tidy := by
  induction names generalizing c with
  | nil => exact h
  | cons name rest ih => exact ih (h.add signer name)

end Coverage

/-! ### From turn to turn -/

namespace Signatures

open SignatureBlock (firsts)

variable {s : Signatures}

theorem tidy_addSigner (h : s.coverage.Tidy) (names : List String) (chain : Chain) :
    (s.addSigner names chain).coverage.Tidy := by
  have hcoverage := s.position_coverage chain
  rw [← hcoverage] at h
  exact h.foldl_add _ names

/-- Noting a chain adds it to the signers unless it is among them. -/
theorem signers_addSigner (s : Signatures) (names : List String) (chain : Chain) :
    (s.addSigner names chain).signers =
      if chain ∈ s.signers then s.signers else s.signers ++ [chain] := by
  rw [addSigner_signers, position]
  cases hfound : s.signers.idxOf? chain with
  | some place =>
    have hmem : chain ∈ s.signers := by
      by_contra hnew
      rw [List.idxOf?_eq_none_iff.2 hnew] at hfound
      cases hfound
    rw [if_pos hmem]
  | none => rw [if_neg (List.idxOf?_eq_none_iff.1 hfound)]

theorem tidy_addBlock (h : s.coverage.Tidy) (chains : List Chain) (names : List String) :
    (s.addBlock chains names).coverage.Tidy := by
  induction chains generalizing s with
  | nil => exact h
  | cons chain rest ih => exact ih (tidy_addSigner h names chain)

theorem signers_addBlock {heard : List Chain} (h : s.signers = firsts heard)
    (chains : List Chain) (names : List String) :
    (s.addBlock chains names).signers = firsts (heard ++ chains) := by
  induction chains generalizing s heard with
  | nil =>
    rw [List.append_nil]
    exact h
  | cons chain rest ih =>
    have hone : (s.addSigner names chain).signers = firsts (heard ++ [chain]) := by
      rw [signers_addSigner, h, SignatureBlock.firsts_concat]
    rw [List.append_cons]
    exact ih hone

/-- The tables after some blocks, each with its chains and the names that its signature file
signs. -/
def noting (found : List (List Chain × List String)) : Signatures :=
  found.foldl (fun s block => s.addBlock block.1 block.2) none

theorem noting_concat (found : List (List Chain × List String))
    (block : List Chain × List String) :
    noting (found ++ [block]) = (noting found).addBlock block.1 block.2 := by
  rw [noting, List.foldl_concat]
  rfl

theorem tidy_noting (found : List (List Chain × List String)) : (noting found).coverage.Tidy := by
  induction found using List.reverseRecOn with
  | nil => exact Coverage.tidy_nil
  | append_singleton found block ih =>
    rw [noting_concat]
    exact tidy_addBlock ih block.1 block.2

theorem signers_noting (found : List (List Chain × List String)) :
    (noting found).signers = firsts (found.flatMap Prod.fst) := by
  induction found using List.reverseRecOn with
  | nil => rfl
  | append_singleton found block ih =>
    rw [noting_concat, signers_addBlock ih, List.flatMap_append, List.flatMap_singleton]

/-! ### Nothing dangles -/

/-- Tables in which no signer dangles and none stands twice. `signs` says of a chain and names
that the chain was noted for them: as the signer of a block whose signature file covers these
names. -/
structure Sound (s : Signatures) (signs : Chain → List String → Prop) : Prop where
  signersDiffer : s.signers.Nodup
  /-- The signers are the chains that were noted. -/
  signersNoted : ∀ chain, chain ∈ s.signers ↔ ∃ names, signs chain names
  namesDiffer : s.coverage.names.Nodup
  /-- Every place is that of a signer. -/
  inRange : ∀ known ∈ s.coverage, ∀ place ∈ known.2, place < s.signers.length
  nonempty : ∀ known ∈ s.coverage, known.2 ≠ []
  noRepeats : ∀ known ∈ s.coverage, known.2.Nodup
  /-- A signer is used for some name unless what it was noted for is no names at all. -/
  used : ∀ place chain, s.signers[place]? = some chain →
    ((∃ known ∈ s.coverage, place ∈ known.2) ↔ ∃ names, signs chain names ∧ names ≠ [])
  /-- The names are those that some chain was noted for. -/
  listed : ∀ name, name ∈ s.coverage.names ↔ ∃ chain names, signs chain names ∧ name ∈ names

theorem Sound.congr {signs signs' : Chain → List String → Prop} (h : s.Sound signs)
    (hsame : ∀ chain names, signs chain names ↔ signs' chain names) : s.Sound signs' := by
  have heq : signs = signs' := funext fun chain => funext fun names => propext (hsame chain names)
  exact heq ▸ h

/-- Every place of a name is that of a signer. -/
theorem Sound.lt_of_mem_signersOf {signs : Chain → List String → Prop} (h : s.Sound signs)
    {name : String} : ∀ place ∈ s.coverage.signersOf name, place < s.signers.length := by
  intro place hplace
  obtain ⟨known, hknown, hmem⟩ := Coverage.exists_of_mem_signersOf hplace
  exact h.inRange known hknown place hmem

section Noting

variable (found : List (List Chain × List String))

/-- A chain was noted for names if it is one of the chains of a block that signs them. -/
def NotedIn (chain : Chain) (names : List String) : Prop :=
  ∃ block ∈ found, chain ∈ block.1 ∧ names = block.2

theorem mem_signers_noting_iff (chain : Chain) :
    chain ∈ (noting found).signers ↔ ∃ names, NotedIn found chain names := by
  rw [signers_noting, SignatureBlock.mem_firsts, List.mem_flatMap]
  constructor
  · rintro ⟨block, hblock, hchain⟩
    exact ⟨block.2, block, hblock, hchain, rfl⟩
  · rintro ⟨_, block, hblock, hchain, _⟩
    exact ⟨block, hblock, hchain⟩

/-- A place stands among those of a name exactly if its chain was noted for the name. -/
theorem mem_places_noting_iff {place : Nat} {chain : Chain}
    (hplace : (noting found).signers[place]? = some chain) (name : String) :
    place ∈ (noting found).coverage.signersOf name ↔
      ∃ names, NotedIn found chain names ∧ name ∈ names := by
  have hrecords : (noting found).Records fun name => broughtTo name found :=
    records_ofBlocks found
  have hbrought : chain ∈ broughtTo name found ↔
      ∃ names, NotedIn found chain names ∧ name ∈ names := by
    simp only [broughtTo, List.mem_flatMap, NotedIn]
    constructor
    · rintro ⟨block, hblock, hchain⟩
      split at hchain
      next hname => exact ⟨block.2, ⟨block, hblock, hchain, rfl⟩, hname⟩
      next => cases hchain
    · rintro ⟨_, ⟨block, hblock, hchain, rfl⟩, hname⟩
      exact ⟨block, hblock, by rwa [if_pos hname]⟩
  rw [mem_signersOf_iff hrecords.distinct hplace, hrecords.chains, SignatureBlock.mem_firsts,
    hbrought]

theorem mem_names_noting_iff (name : String) :
    name ∈ (noting found).coverage.names ↔
      ∃ chain names, NotedIn found chain names ∧ name ∈ names := by
  rw [(tidy_noting found).mem_names_iff]
  constructor
  · intro hsome
    obtain ⟨place, hplace⟩ := List.exists_mem_of_ne_nil _ hsome
    have hlt := (records_ofBlocks found).inRange name place hplace
    exact ⟨_, (mem_places_noting_iff found (List.getElem?_eq_getElem hlt) name).1 hplace⟩
  · rintro ⟨chain, names, hnoted, hname⟩
    obtain ⟨place, hplace⟩ :=
      List.getElem?_of_mem ((mem_signers_noting_iff found chain).2 ⟨names, hnoted⟩)
    exact List.ne_nil_of_mem ((mem_places_noting_iff found hplace name).2 ⟨names, hnoted, hname⟩)

/-- After some blocks the tables are sound. -/
theorem sound_noting : (noting found).Sound (NotedIn found) where
  signersDiffer := (records_ofBlocks found).distinct
  signersNoted := mem_signers_noting_iff found
  namesDiffer := (tidy_noting found).namesDiffer
  inRange := fun known hknown place hplace =>
    (records_ofBlocks found).inRange known.1 place
      (((tidy_noting found).signersOf_of_mem hknown).symm ▸ hplace)
  nonempty := (tidy_noting found).nonempty
  noRepeats := (tidy_noting found).noRepeats
  used := by
    intro place chain hplace
    constructor
    · rintro ⟨known, hknown, hmem⟩
      rw [← (tidy_noting found).signersOf_of_mem hknown,
        mem_places_noting_iff found hplace] at hmem
      obtain ⟨names, hnoted, hname⟩ := hmem
      exact ⟨names, hnoted, List.ne_nil_of_mem hname⟩
    · rintro ⟨names, hnoted, hsome⟩
      obtain ⟨name, hname⟩ := List.exists_mem_of_ne_nil names hsome
      exact Coverage.exists_of_mem_signersOf
        ((mem_places_noting_iff found hplace name).2 ⟨names, hnoted, hname⟩)
  listed := mem_names_noting_iff found

end Noting

end Signatures

/-! ### In the course of loading -/

/-- A block signs as this chain for these names: its signatures verify over its signature file,
the chain is of those that it verifies, and the signature file covers the names. -/
def PairedBlock.Signs (limit : UInt64) (m : Manifest) (p : PairedBlock) (chain : Chain)
    (names : List String) : Prop :=
  ∃ file chains, p.verified limit = .ok (file, chains) ∧ chain ∈ chains ∧
    file.coveredNames m = .ok names

/-- The tables while the blocks behind `before` are still to come: those are done, and of the
chains of the block `p` as many as `turns` are noted. -/
def tablesAfter (limit : UInt64) (m : Manifest) (before : List PairedBlock) (p : PairedBlock)
    (turns : Nat) : Except ReadError Signatures := do
  let s ← before.foldlM (fun s q => do
    let (chains, names) ← q.signed limit m
    .ok (s.addBlock chains names)) Signatures.none
  let (chains, names) ← p.signed limit m
  .ok (s.addBlock (chains.take turns) names)

/-- What has been noted by then. -/
def NotedBy (limit : UInt64) (m : Manifest) (before : List PairedBlock) (p : PairedBlock)
    (turns : Nat) (chain : Chain) (names : List String) : Prop :=
  (∃ q ∈ before, q.Signs limit m chain names) ∨
    ∃ file chains, p.verified limit = .ok (file, chains) ∧ chain ∈ chains.take turns ∧
      file.coveredNames m = .ok names

/-- What the paired blocks of an archive sign, if it has a manifest that reads. -/
def ArchiveSigns (entries : List Entry) (limit : UInt64) (chain : Chain)
    (names : List String) : Prop :=
  ∃ e m, entryNamed? entries EntryName.manifest = some e ∧ readManifest limit e = .ok m ∧
    ∃ p ∈ pairedBlocks entries, p.Signs limit m chain names

section Course

variable {limit : UInt64} {m : Manifest} {before blocks : List PairedBlock} {p : PairedBlock}
  {found : List (List Chain × List String)} {s : Signatures}

theorem PairedBlock.signs_iff {chain : Chain} {names : List String} :
    p.Signs limit m chain names ↔
      ∃ chains, p.signed limit m = .ok (chains, names) ∧ chain ∈ chains := by
  simp only [Signs, signed_eq_ok_iff]
  constructor
  · rintro ⟨file, chains, hverified, hchain, hnames⟩
    exact ⟨chains, ⟨file, hverified, hnames⟩, hchain⟩
  · rintro ⟨chains, ⟨file, hverified, hnames⟩, hchain⟩
    exact ⟨file, chains, hverified, hchain, hnames⟩

/-- What is said of the chains of a block that verifies, and of the names that its signature file
covers, is said of those that were found. -/
theorem exists_verified_iff {chains : List Chain} {names : List String}
    (hsigned : p.signed limit m = .ok (chains, names)) (P : List Chain → Prop)
    (others : List String) :
    (∃ file verified, p.verified limit = .ok (file, verified) ∧ P verified ∧
      file.coveredNames m = .ok others) ↔ P chains ∧ others = names := by
  obtain ⟨file, hverified, hnames⟩ := PairedBlock.signed_eq_ok_iff.1 hsigned
  simp only [hverified, Except.ok.injEq, Prod.mk.injEq]
  constructor
  · rintro ⟨_, _, ⟨rfl, rfl⟩, hchains, hcovered⟩
    exact ⟨hchains, Except.ok.inj (hcovered.symm.trans hnames)⟩
  · rintro ⟨hchains, rfl⟩
    exact ⟨file, chains, ⟨rfl, rfl⟩, hchains, hnames⟩

/-- What blocks were found to sign is what they sign. -/
theorem notedIn_iff (hfound : blocks.mapM (PairedBlock.signed limit m) = .ok found)
    (chain : Chain) (names : List String) :
    Signatures.NotedIn found chain names ↔ ∃ p ∈ blocks, p.Signs limit m chain names := by
  obtain ⟨hthere, hback⟩ := Steps.exists_fellow (Steps.forall₂_of_mapM_eq_ok hfound)
  simp only [Signatures.NotedIn, PairedBlock.signs_iff]
  constructor
  · rintro ⟨⟨chains, _⟩, hblock, hchain, rfl⟩
    obtain ⟨p, hp, hsigned⟩ := hback _ hblock
    exact ⟨p, hp, chains, hsigned, hchain⟩
  · rintro ⟨p, hp, chains, hsigned, hchain⟩
    obtain ⟨block, hblock, hsame⟩ := hthere p hp
    rw [hsigned] at hsame
    cases hsame
    exact ⟨_, hblock, hchain, rfl⟩

/-- The tables at any point of the loop are those after the blocks that are done and a block with
the chains noted so far. -/
theorem tablesAfter_eq_ok_iff {turns : Nat} :
    tablesAfter limit m before p turns = .ok s ↔
      ∃ found chains names, before.mapM (PairedBlock.signed limit m) = .ok found ∧
        p.signed limit m = .ok (chains, names) ∧
        s = Signatures.noting (found ++ [(chains.take turns, names)]) := by
  have hgather := Steps.foldlM_eq_map_mapM (PairedBlock.signed limit m)
    (fun s found => Signatures.addBlock s found.1 found.2) before Signatures.none
  rw [tablesAfter, hgather]
  simp only [Steps.bind_eq_ok_iff, Steps.map_eq_ok_iff, Signatures.noting, List.foldl_append]
  constructor
  · rintro ⟨_, ⟨found, hfound, rfl⟩, ⟨chains, names⟩, hsigned, heq⟩
    cases heq
    exact ⟨found, chains, names, hfound, hsigned, rfl⟩
  · rintro ⟨found, chains, names, hfound, hsigned, rfl⟩
    exact ⟨_, ⟨found, hfound, rfl⟩, (chains, names), hsigned, rfl⟩

/-- The tables are sound at every point of the loop. -/
theorem sound_tablesAfter {turns : Nat} (h : tablesAfter limit m before p turns = .ok s) :
    s.Sound (NotedBy limit m before p turns) := by
  obtain ⟨found, chains, names, hfound, hsigned, rfl⟩ := tablesAfter_eq_ok_iff.1 h
  refine (Signatures.sound_noting _).congr fun chain others => ?_
  rw [NotedBy, ← notedIn_iff hfound,
    exists_verified_iff hsigned fun verified => chain ∈ verified.take turns]
  simp only [Signatures.NotedIn, List.mem_append, List.mem_singleton, or_and_right, exists_or,
    exists_eq_left]

/-- Loading ends where the loop has gone through all chains of the last block. -/
theorem verifyBlocks_concat_eq_ok_iff :
    verifyBlocks limit m (before ++ [p]) = .ok s ↔
      ∃ chains names last, p.signed limit m = .ok (chains, names) ∧
        tablesAfter limit m before p chains.length = .ok last ∧
        s = { last with manifest := some m } := by
  simp only [verifyBlocks, tablesAfter, List.foldlM_append, List.foldlM_cons, List.foldlM_nil,
    Steps.bind_eq_ok_iff]
  constructor
  · rintro ⟨_, ⟨first, hfirst, _, ⟨⟨chains, names⟩, hsigned, hblock⟩, hpure⟩, hs⟩
    cases hblock
    cases hpure
    cases hs
    exact ⟨chains, names, _, hsigned, ⟨first, hfirst, _, hsigned, rfl⟩,
      by rw [List.take_length]⟩
  · rintro ⟨chains, names, last, hsigned, ⟨first, hfirst, block, hblock, hlast⟩, rfl⟩
    cases hsigned.symm.trans hblock
    rw [List.take_length] at hlast
    cases hlast
    exact ⟨_, ⟨first, hfirst, _, ⟨(chains, names), hsigned, rfl⟩, rfl⟩, rfl⟩

/-- When all chains of a block are noted, what is noted is what the blocks sign. -/
theorem notedBy_length {chains : List Chain} {names others : List String}
    (hsigned : p.signed limit m = .ok (chains, names)) (chain : Chain) :
    NotedBy limit m before p chains.length chain others ↔
      ∃ q ∈ before ++ [p], q.Signs limit m chain others := by
  have hlast : (∃ file verified, p.verified limit = .ok (file, verified) ∧
      chain ∈ verified.take chains.length ∧ file.coveredNames m = .ok others) ↔
      p.Signs limit m chain others := by
    rw [PairedBlock.Signs, exists_verified_iff hsigned fun verified => chain ∈ verified,
      exists_verified_iff hsigned fun verified => chain ∈ verified.take chains.length,
      List.take_length]
  rw [NotedBy, hlast]
  simp only [List.mem_append, List.mem_singleton, or_and_right, exists_or, exists_eq_left]

end Course

/-! ### After loading -/

section Loaded

variable {entries : List Entry} {limit : UInt64} {s : Signatures}

theorem Signatures.sound_none {signs : Chain → List String → Prop}
    (h : ∀ chain names, ¬ signs chain names) : Signatures.none.Sound signs :=
  (sound_noting []).congr fun chain names => by simp [NotedIn, h]

theorem Signatures.Sound.withManifest {signs : Chain → List String → Prop} (h : s.Sound signs)
    (m : Option Manifest) : { s with manifest := m }.Sound signs :=
  ⟨h.signersDiffer, h.signersNoted, h.namesDiffer, h.inRange, h.nonempty, h.noRepeats, h.used,
    h.listed⟩

/-- Signatures that load are sound, and have the manifest if they have any name. -/
theorem sound_of_verifySignatures (h : verifySignatures entries limit = .ok s) :
    s.Sound (ArchiveSigns entries limit) ∧
      (s.coverage ≠ [] → ∃ e m, entryNamed? entries EntryName.manifest = some e ∧
        readManifest limit e = .ok m ∧ s.manifest = some m) := by
  by_cases hnothing : pairedBlocks entries = [] ∨ entryNamed? entries EntryName.manifest = none
  · rw [verifySignatures_eq_none limit hnothing] at h
    cases h
    refine ⟨Signatures.sound_none ?_, fun hsome => absurd rfl hsome⟩
    rintro chain names ⟨e, m, hentry, _, p, hp, _⟩
    rcases hnothing with hnil | hnone
    · rw [hnil] at hp
      cases hp
    · rw [hnone] at hentry
      cases hentry
  · obtain ⟨hpaired, hsome⟩ := not_or.1 hnothing
    obtain ⟨e, hentry⟩ := Option.ne_none_iff_exists'.1 hsome
    rw [verifySignatures_eq_bind hentry hpaired] at h
    obtain ⟨m, hm, hblocks⟩ := Steps.bind_eq_ok_iff.1 h
    obtain ⟨before, p, hlast⟩ := (List.eq_nil_or_concat (pairedBlocks entries)).resolve_left hpaired
    rw [hlast, List.concat_eq_append] at hblocks
    obtain ⟨chains, names, last, hsigned, htables, rfl⟩ := verifyBlocks_concat_eq_ok_iff.1 hblocks
    refine ⟨((sound_tablesAfter htables).congr fun chain others => ?_).withManifest _,
      fun _ => ⟨e, m, hentry, hm, rfl⟩⟩
    rw [notedBy_length hsigned, ← List.concat_eq_append, ← hlast]
    constructor
    · exact fun hp => ⟨e, m, hentry, hm, hp⟩
    · rintro ⟨e', m', hentry', hm', hp⟩
      cases hentry.symm.trans hentry'
      cases hm.symm.trans hm'
      exact hp

end Loaded

/-! ### Signers by their places -/

namespace Signatures

/-- The signers at some places; there is no answer if one of the places is none. -/
def signersAt? (s : Signatures) (places : List Nat) : Option (List Chain) :=
  places.mapM fun place => s.signers[place]?

/-- Places in range have their signers. -/
theorem signersAt?_of_inRange {s : Signatures} {places : List Nat}
    (h : ∀ place ∈ places, place < s.signers.length) :
    s.signersAt? places = some (places.filterMap fun place => s.signers[place]?) := by
  induction places with
  | nil => rfl
  | cons place rest ih =>
    obtain ⟨hplace, hrest⟩ := List.forall_mem_cons.1 h
    have htail := ih hrest
    rw [signersAt?] at htail ⊢
    rw [List.mapM_cons, htail, List.getElem?_eq_getElem hplace, List.filterMap_cons,
      List.getElem?_eq_getElem hplace]
    rfl

end Signatures

namespace SignedArchive

/-- In any run the signatures at hand are those of some load of the archive. -/
theorem exists_load_of_currentSignatures {entries : List Entry} {steps : List ReaderStep}
    {s : Signatures} (h : ((opened entries).after steps).currentSignatures = .ok s) :
    ∃ limit, verifySignatures entries limit = .ok s := by
  rw [after_currentSignatures rfl] at h
  exact ⟨_, h⟩

/-- In any run the signatures that are kept were loaded under the load limit. -/
theorem load_of_signatures {entries : List Entry} {steps : List ReaderStep} {s : Signatures}
    (h : ((opened entries).after steps).signatures = some s) :
    ∃ limit, loadLimit? entries .none steps = some limit ∧
      verifySignatures entries limit = .ok s := by
  have hrun := after_signatures (a := opened entries) rfl steps
  have hentries : (opened entries).entries = entries := rfl
  have hlimits : (opened entries).limits = .none := rfl
  rw [hentries, hlimits] at hrun
  cases hlimit : loadLimit? entries .none steps with
  | none =>
    rw [hlimit, h] at hrun
    cases hrun
  | some limit =>
    rw [hlimit, h] at hrun
    obtain ⟨found, hfound, hsame⟩ := hrun
    cases hsame
    exact ⟨limit, rfl, hfound⟩

end SignedArchive

/-- The tables of signers hold nothing that dangles and nothing twice. For every archive and all
limits they are sound after every turn of the loop over chains, for what has been noted by then,
and in every run whatever the archive keeps is sound for what its paired blocks sign, with the
manifest set if any name is signed. Names that are covered are listed by the signature file that
covers them. And in any run each read finds a signer at every place that it takes for one. -/
theorem signer_tables_hold_nothing_dangling (entries : List Entry) :
    (∀ (limit : UInt64) (e : Entry) (m : Manifest) (before after : List PairedBlock)
        (p : PairedBlock) (turns : Nat) (s : Signatures),
      entryNamed? entries EntryName.manifest = some e → readManifest limit e = .ok m →
      pairedBlocks entries = before ++ p :: after → tablesAfter limit m before p turns = .ok s →
      s.Sound (NotedBy limit m before p turns)) ∧
    (∀ (steps : List ReaderStep) (s : Signatures),
      ((SignedArchive.opened entries).after steps).signatures = some s →
      ∃ limit, loadLimit? entries .none steps = some limit ∧
        s.Sound (ArchiveSigns entries limit) ∧
        (s.coverage ≠ [] → ∃ e m, entryNamed? entries EntryName.manifest = some e ∧
          readManifest limit e = .ok m ∧ s.manifest = some m)) ∧
    (∀ (f : SignatureFile) (m : Manifest) (names : List String), f.coveredNames m = .ok names →
      ∀ name ∈ names, name ∈ f.namedEntries) ∧
    ∀ (steps : List ReaderStep) (s : Signatures),
      ((SignedArchive.opened entries).after steps).currentSignatures = .ok s →
      ∀ i e, entries[i]? = some e →
        ∃ chains, s.signersAt? (s.coverage.signersOf e.name) = some chains ∧
          ∀ checked, (((SignedArchive.opened entries).after steps).read i).result = .ok checked →
            checked.signers = if s.isUnchecked e.name then [] else chains := by
  refine ⟨?_, ?_, ?_, ?_⟩
  · intro limit e m before after p turns s _ _ _ htables
    exact sound_tablesAfter htables
  · intro steps s hkept
    obtain ⟨limit, hlimit, hload⟩ := SignedArchive.load_of_signatures hkept
    exact ⟨limit, hlimit, sound_of_verifySignatures hload⟩
  · exact fun f m names h => SignatureFile.subset_namedEntries h
  · intro steps s hcurrent i e hentry
    obtain ⟨limit, hload⟩ := SignedArchive.exists_load_of_currentSignatures hcurrent
    have hsound := (sound_of_verifySignatures hload).1
    refine ⟨_, Signatures.signersAt?_of_inRange hsound.lt_of_mem_signersOf,
      fun checked hread => ?_⟩
    rw [SignedArchive.read, SignedArchive.after_entries] at hread
    have hentries : (SignedArchive.opened entries).entries = entries := rfl
    simp only [hentries, hentry, hcurrent] at hread
    obtain ⟨size, _, rfl⟩ := Steps.map_eq_ok_iff.1 hread
    rfl

/-- In the signed archive the first turn notes the signer for the file, and a read leaves the
archive with the manifest. -/
theorem signedArchive_keeps_sound_tables :
    (∃ s, tablesAfter 0 archiveManifest [] archiveBlock 1 = .ok s ∧ s.coverage.names.Nodup ∧
      "a" ∈ s.coverage.names) ∧
    ∃ s, ((SignedArchive.opened signedArchive).after [.read 3]).signatures = some s ∧
      "a" ∈ s.coverage.names ∧ s.manifest = some archiveManifest := by
  obtain ⟨hcourse, hkept, _, _⟩ := signer_tables_hold_nothing_dangling signedArchive
  obtain ⟨file, hverified, hcovered⟩ := PairedBlock.signed_eq_ok_iff.1 signed_archiveBlock
  constructor
  · obtain ⟨s, hs⟩ : ∃ s, tablesAfter 0 archiveManifest [] archiveBlock 1 = .ok s :=
      ⟨_, tablesAfter_eq_ok_iff.2 ⟨[], _, _, rfl, signed_archiveBlock, rfl⟩⟩
    have hsound := hcourse 0 _ _ _ _ _ _ _ entryNamed?_signedArchive readManifest_archiveManifest
      pairedBlocks_signedArchive hs
    have hnoted : NotedBy 0 archiveManifest [] archiveBlock 1
        ⟨archiveSigner.certificate, []⟩ ["a"] :=
      Or.inr ⟨file, _, hverified, List.mem_singleton_self _, hcovered⟩
    exact ⟨s, hs, hsound.namesDiffer,
      (hsound.listed "a").2 ⟨_, _, hnoted, List.mem_singleton_self _⟩⟩
  · obtain ⟨s, hload⟩ := verifySignatures_signedArchive
    have hafter : ∀ a : SignedArchive, a.after [.read 3] = (a.read 3).archive := fun _ => rfl
    have hs : ((SignedArchive.opened signedArchive).after [.read 3]).signatures = some s := by
      rw [hafter]
      exact SignedArchive.read_loads_signatures rfl (by decide) hload
    obtain ⟨limit, hlimit, hsound, hmanifest⟩ := hkept _ s hs
    have hzero : limit = 0 := by
      have hloads : 3 < signedArchive.length ∧
          Steps.failure? (verifySignatures signedArchive SizeLimits.none.metadata) = none :=
        ⟨by decide, Steps.failure?_eq_none_iff.2 ⟨s, hload⟩⟩
      rw [loadLimit?, if_pos hloads] at hlimit
      exact (Option.some.inj hlimit).symm
    subst hzero
    have hblock : archiveBlock ∈ pairedBlocks signedArchive := by
      rw [pairedBlocks_signedArchive]
      exact List.mem_singleton_self _
    have hsigns : ArchiveSigns signedArchive 0 ⟨archiveSigner.certificate, []⟩ ["a"] :=
      ⟨_, _, entryNamed?_signedArchive, readManifest_archiveManifest, _, hblock, file, _,
        hverified, List.mem_singleton_self _, hcovered⟩
    have hname := (hsound.listed "a").2 ⟨_, _, hsigns, List.mem_singleton_self _⟩
    obtain ⟨known, hknown, _⟩ := List.mem_map.1 hname
    obtain ⟨e, m, hentry, hm, hset⟩ := hmanifest (List.ne_nil_of_mem hknown)
    cases hentry.symm.trans entryNamed?_signedArchive
    cases hm.symm.trans readManifest_archiveManifest
    exact ⟨s, hs, hname, hset⟩

end JarSigners
