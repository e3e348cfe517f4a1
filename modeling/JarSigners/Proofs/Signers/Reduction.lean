import JarSigners.Proofs.Archive.Answers
import JarSigners.Proofs.Signers.Shared

/-!
# The first difference decides

The answers to the reads of an archive's content are reduced to one outcome. An answer agrees
with the first one if both reads succeed with the same fingerprints; one that does not is an
objection, and the first objection in order is the outcome (`sharedAnswers_of_objection`). What
comes behind it counts for nothing (`sharedAnswers_ignores_rest`). Without an objection the
outcome is the signers of the first answer.
-/

set_option autoImplicit false

namespace JarSigners

/-! ### Answers that agree -/

/-- Both reads succeed, and with signers of the same fingerprints. -/
def Agree (a b : Except ReadError CheckedEntry) : Prop :=
  ∃ one other, a = .ok one ∧ b = .ok other ∧ SamePrints one.signers other.signers

namespace Agree

variable {a b c : Except ReadError CheckedEntry} {one other : CheckedEntry}

theorem ok_iff : Agree (.ok one) (.ok other) ↔ SamePrints one.signers other.signers := by
  simp [Agree]

theorem refl_ok (one : CheckedEntry) : Agree (.ok one) (.ok one) :=
  ok_iff.2 (.refl _)

theorem symm (h : Agree a b) : Agree b a := by
  obtain ⟨one, other, ha, hb, hsame⟩ := h
  exact ⟨other, one, hb, ha, hsame.symm⟩

theorem trans (hab : Agree a b) (hbc : Agree b c) : Agree a c := by
  obtain ⟨one, other, rfl, rfl, hsame⟩ := hab
  obtain ⟨_, third, heq, rfl, hsame'⟩ := hbc
  cases heq
  exact ok_iff.2 (hsame.trans hsame')

end Agree

/-! ### Objections -/

/-- What an answer has against the signers of the first one. -/
def objection? (first : CheckedEntry) : Except ReadError CheckedEntry → Option SignersError
  | .error e => some (.archive e)
  | .ok entry => (disagreement? first.name (.ofList first.signers) entry).map .disagreement

theorem objection?_eq_none_iff {first : CheckedEntry} {answer : Except ReadError CheckedEntry} :
    objection? first answer = none ↔ Agree (.ok first) answer := by
  cases answer with
  | error e => simp [objection?, Agree]
  | ok entry =>
    rw [objection?, Option.map_eq_none_iff, disagreement?_eq_none_iff,
      SignerSet.same_ofList_iff, Agree.ok_iff]

/-- Other signers than the first ones are reported with both names and both lists. -/
theorem objection?_of_not_samePrints {first entry : CheckedEntry}
    (h : ¬ SamePrints first.signers entry.signers) :
    objection? first (.ok entry) =
      some (.disagreement
        ⟨first.name, (firstByPrint first.signers).map Chain.displayName,
          entry.name, (firstByPrint entry.signers).map Chain.displayName⟩) := by
  have hdiffer : ¬ (SignerSet.ofList first.signers).same (.ofList entry.signers) = true :=
    mt SignerSet.same_ofList_iff.1 h
  simp only [objection?, disagreement?, if_neg hdiffer, Option.map_some, SignerSet.names,
    SignerSet.signers_ofList]

/-- The first objection is the outcome; without one the signers of the first answer are. -/
theorem sharedAnswers_ok_cons (first : CheckedEntry)
    (rest : List (Except ReadError CheckedEntry)) :
    sharedAnswers (.ok first :: rest) =
      match rest.findSome? (objection? first) with
      | some e => .error e
      | none => .ok (.ofList first.signers) := by
  rw [sharedAnswers]
  induction rest with
  | nil => rfl
  | cons answer rest ih =>
    cases answer with
    | error e => rfl
    | ok entry =>
      rw [compareAnswers, List.findSome?_cons, objection?]
      cases hdisagree : disagreement? first.name (.ofList first.signers) entry with
      | some d => rfl
      | none => exact ih

theorem sharedAnswers_of_objection {first : CheckedEntry}
    {before after : List (Except ReadError CheckedEntry)}
    {answer : Except ReadError CheckedEntry} {e : SignersError}
    (hbefore : ∀ b ∈ before, Agree (.ok first) b) (hanswer : objection? first answer = some e) :
    sharedAnswers (.ok first :: (before ++ answer :: after)) = .error e := by
  have hnone : before.findSome? (objection? first) = none := by
    rw [List.findSome?_eq_none_iff]
    exact fun b hb => objection?_eq_none_iff.2 (hbefore b hb)
  rw [sharedAnswers_ok_cons, List.findSome?_append, hnone, Option.none_or,
    List.findSome?_cons_of_isSome (by rw [hanswer]; rfl), hanswer]

theorem sharedAnswers_of_agree {first : CheckedEntry}
    {rest : List (Except ReadError CheckedEntry)} (hrest : ∀ b ∈ rest, Agree (.ok first) b) :
    sharedAnswers (.ok first :: rest) = .ok (.ofList first.signers) := by
  have hnone : rest.findSome? (objection? first) = none := by
    rw [List.findSome?_eq_none_iff]
    exact fun b hb => objection?_eq_none_iff.2 (hrest b hb)
  rw [sharedAnswers_ok_cons, hnone]

/-- Behind an answer that does not agree with the first one nothing counts. -/
theorem sharedAnswers_ignores_rest {front tail other : List (Except ReadError CheckedEntry)}
    {first answer : Except ReadError CheckedEntry}
    (hfirst : (front ++ answer :: tail).head? = some first)
    (hdiffer : ¬ Agree first answer) :
    sharedAnswers (front ++ answer :: other) = sharedAnswers (front ++ answer :: tail) := by
  cases front with
  | nil =>
    cases hfirst
    cases first with
    | error e => rfl
    | ok entry => exact absurd (.refl_ok entry) hdiffer
  | cons head front =>
    cases hfirst
    cases first with
    | error e => rfl
    | ok one =>
      have hsome : (objection? one answer).isSome = true := by
        rw [Option.isSome_iff_ne_none]
        exact mt objection?_eq_none_iff.1 hdiffer
      rw [List.cons_append, List.cons_append, sharedAnswers_ok_cons, sharedAnswers_ok_cons,
        List.findSome?_append, List.findSome?_append, List.findSome?_cons_of_isSome hsome,
        List.findSome?_cons_of_isSome hsome]

/-- An outcome that is no failure is empty, or the signers of some answer; and it has the
fingerprints of every answer. -/
theorem sharedAnswers_eq_ok {answers : List (Except ReadError CheckedEntry)} {set : SignerSet}
    (h : sharedAnswers answers = .ok set) :
    (set = .empty ∨ ∃ one, .ok one ∈ answers ∧ set = .ofList one.signers) ∧
      ∀ a ∈ answers, ∃ entry, a = .ok entry ∧ SamePrints set.signers entry.signers := by
  cases answers with
  | nil =>
    cases h
    exact ⟨Or.inl rfl, fun a ha => absurd ha List.not_mem_nil⟩
  | cons first rest =>
    cases first with
    | error e => cases h
    | ok one =>
      rw [sharedAnswers_ok_cons] at h
      cases hobjection : rest.findSome? (objection? one) with
      | some e =>
        rw [hobjection] at h
        cases h
      | none =>
        rw [hobjection] at h
        cases h
        have hprints := SignerSet.samePrints_ofList one.signers
        refine ⟨Or.inr ⟨one, List.mem_cons_self, rfl⟩, ?_⟩
        rw [List.forall_mem_cons]
        refine ⟨⟨one, rfl, hprints⟩, ?_⟩
        intro a ha
        have hagree := objection?_eq_none_iff.1 (List.findSome?_eq_none_iff.1 hobjection a ha)
        obtain ⟨_, entry, hone, rfl, hsame⟩ := hagree
        cases hone
        exact ⟨entry, rfl, hprints.trans hsame⟩

/-- There is an outcome other than failure if all answers agree with each other. -/
theorem exists_sharedAnswers_eq_ok_iff {answers : List (Except ReadError CheckedEntry)} :
    (∃ set, sharedAnswers answers = .ok set) ↔ ∀ a ∈ answers, ∀ b ∈ answers, Agree a b := by
  cases answers with
  | nil => simp [sharedAnswers]
  | cons first rest =>
    cases first with
    | error e =>
      have hself : ¬ Agree (.error e) (.error e) := by simp [Agree]
      constructor
      · rintro ⟨set, hset⟩
        cases hset
      · exact fun hall => absurd (hall _ List.mem_cons_self _ List.mem_cons_self) hself
    | ok one =>
      constructor
      · rintro ⟨set, hset⟩ a ha b hb
        obtain ⟨_, hall⟩ := sharedAnswers_eq_ok hset
        obtain ⟨_, rfl, hone⟩ := hall a ha
        obtain ⟨_, rfl, htwo⟩ := hall b hb
        exact Agree.ok_iff.2 (hone.symm.trans htwo)
      · intro hall
        refine ⟨_, sharedAnswers_of_agree fun b hb => ?_⟩
        exact hall _ List.mem_cons_self b (List.mem_cons_of_mem _ hb)

/-- Where two answers do not agree, the outcome is a failure. -/
theorem exists_sharedAnswers_eq_error {answers : List (Except ReadError CheckedEntry)}
    {a b : Except ReadError CheckedEntry} (ha : a ∈ answers) (hb : b ∈ answers)
    (hdiffer : ¬ Agree a b) : ∃ failure, sharedAnswers answers = .error failure := by
  cases houtcome : sharedAnswers answers with
  | error failure => exact ⟨failure, rfl⟩
  | ok set => exact absurd (exists_sharedAnswers_eq_ok_iff.1 ⟨set, houtcome⟩ a ha b hb) hdiffer

/-! ### Answers of an archive -/

/-- The answers to the reads of content are those that the archive gives entry by entry. -/
theorem map_content_read (entries : List Entry) (limits : SizeLimits) :
    ((entries.zipIdx.filter fun p => p.1.isContent).map fun p =>
        (((SignedArchive.opened entries).limitedTo limits).read p.2).result) =
      (entries.filter Entry.isContent).map (answerTo entries limits) := by
  have hread : ∀ p ∈ entries.zipIdx.filter fun p => p.1.isContent,
      (((SignedArchive.opened entries).limitedTo limits).read p.2).result =
        answerTo entries limits p.1 := by
    intro p hp
    exact read_fresh_eq_answerTo (List.mem_zipIdx_iff_getElem?.1 (List.mem_filter.1 hp).1) limits
  have hcontent : (entries.zipIdx.filter fun p => p.1.isContent).map Prod.fst =
      entries.filter Entry.isContent := by
    have hfilter := List.filter_map (p := Entry.isContent) (f := Prod.fst) (l := entries.zipIdx)
    rw [List.zipIdx_map_fst] at hfilter
    exact hfilter.symm
  rw [List.map_congr_left hread, ← hcontent, List.map_map]
  rfl

/-- The shared signers of an archive come from what it answers for each content entry. -/
theorem sharedSigners_eq (entries : List Entry) (limits : SizeLimits) :
    (sharedSigners entries limits).result =
      sharedAnswers ((entries.filter Entry.isContent).map (answerTo entries limits)) := by
  rw [sharedSigners, SignedArchive.sharedSigners_result, contentPositions, List.map_map,
    ← map_content_read]
  rfl

/-- Shared signers are the set of those whom some content entry grants; and every content entry
grants signers with their fingerprints. -/
theorem sharedSigners_eq_ok {entries : List Entry} {limits : SizeLimits} {set : SignerSet}
    (h : (sharedSigners entries limits).result = .ok set) :
    (set = .empty ∨ ∃ e ∈ entries, ∃ checked, answerTo entries limits e = .ok checked ∧
      set = .ofList checked.signers) ∧
    ∀ e ∈ entries, e.isContent = true → ∃ checked, answerTo entries limits e = .ok checked ∧
      SamePrints set.signers checked.signers := by
  rw [sharedSigners_eq] at h
  obtain ⟨hsource, hall⟩ := sharedAnswers_eq_ok h
  refine ⟨?_, ?_⟩
  · rcases hsource with hempty | ⟨checked, hmem, hset⟩
    · exact Or.inl hempty
    · obtain ⟨e, he, hanswer⟩ := List.mem_map.1 hmem
      exact Or.inr ⟨e, (List.mem_filter.1 he).1, checked, hanswer, hset⟩
  · intro e hmem hcontent
    exact hall _ (List.mem_map_of_mem (List.mem_filter.2 ⟨hmem, hcontent⟩))

theorem coherent_of_sharedSigners {entries : List Entry} {limits : SizeLimits} {set : SignerSet}
    (h : (sharedSigners entries limits).result = .ok set) : set.Coherent := by
  rcases (sharedSigners_eq_ok h).1 with rfl | ⟨_, _, checked, _, rfl⟩
  · exact SignerSet.coherent_empty
  · exact SignerSet.coherent_ofList checked.signers

/-- What comes behind an entry that decides has no influence, as far as it is content. -/
theorem sharedSigners_ignores_rest {front tail other : List Entry} {e : Entry}
    {limits : SizeLimits} {first : Except ReadError CheckedEntry} (hcontent : e.isContent = true)
    (hmetadata : (tail.filter fun e => !e.isContent) = other.filter fun e => !e.isContent)
    (hfirst : (((front ++ e :: tail).filter Entry.isContent).map
      (answerTo (front ++ e :: tail) limits)).head? = some first)
    (hdiffer : ¬ Agree first (answerTo (front ++ e :: tail) limits e)) :
    (sharedSigners (front ++ e :: other) limits).result =
      (sharedSigners (front ++ e :: tail) limits).result := by
  have hload : verifySignatures (front ++ e :: other) limits.metadata =
      verifySignatures (front ++ e :: tail) limits.metadata := by
    have hother := verifySignatures_filter (front ++ [e]) other limits.metadata
    have htail := verifySignatures_filter (front ++ [e]) tail limits.metadata
    rw [← hmetadata, htail] at hother
    simpa using hother.symm
  have hanswers : answerTo (front ++ e :: other) limits =
      answerTo (front ++ e :: tail) limits := funext (answerTo_congr hload)
  rw [List.filter_append, List.filter_cons_of_pos hcontent, List.map_append,
    List.map_cons] at hfirst
  rw [sharedSigners_eq, sharedSigners_eq, hanswers, List.filter_append, List.filter_append,
    List.filter_cons_of_pos hcontent, List.filter_cons_of_pos hcontent, List.map_append,
    List.map_append, List.map_cons, List.map_cons]
  exact sharedAnswers_ignores_rest hfirst hdiffer

/-- The signers of an archive are reduced from the reads of its content in order, and the first
difference decides. Without content there are none. Otherwise the first entry that does not
read, or whose signers do not have the fingerprints of those of the first one, is the outcome:
its failure to read, or the names of both entries with their signers, each counted once and in
the order of the archive. If there is no such entry, the outcome is the signers of the first one,
each counted once and in that order. Content behind an entry that decides has no influence, be
it there or not, and an entry that nobody signed never goes with one that somebody did. -/
theorem first_difference_decides (entries : List Entry) (limits : SizeLimits) :
    let content := entries.zipIdx.filter fun p => p.1.isContent
    let answer := fun p : Entry × Nat =>
      (((SignedArchive.opened entries).limitedTo limits).read p.2).result
    let outcome := (sharedSigners entries limits).result
    (content = [] → outcome = .ok .empty) ∧
    (∀ p ∈ content, ∀ checked, answer p = .ok checked →
      checked.name = p.1.name ∧
        (checked.signers = [] ∨ checked.signers = coveringSigners entries p.1.name)) ∧
    (∀ first rest, content = first :: rest →
      (∀ failure, answer first = .error failure → outcome = .error (.archive failure)) ∧
      (∀ one, answer first = .ok one →
        (∀ before p after, rest = before ++ p :: after →
          (∀ q ∈ before, Agree (answer first) (answer q)) →
          (∀ failure, answer p = .error failure → outcome = .error (.archive failure)) ∧
          (∀ two, answer p = .ok two → ¬ SamePrints one.signers two.signers →
            outcome = .error (.disagreement
              ⟨first.1.name, (firstByPrint one.signers).map Chain.displayName,
                p.1.name, (firstByPrint two.signers).map Chain.displayName⟩))) ∧
        ((∀ q ∈ rest, Agree (answer first) (answer q)) →
          ∃ set, outcome = .ok set ∧ set.signers = firstByPrint one.signers)) ∧
      (∀ front e tail other, entries = front ++ e :: tail → e.isContent = true →
        ¬ Agree (answer first) (answer (e, front.length)) →
        (tail.filter fun e => !e.isContent) = other.filter (fun e => !e.isContent) →
        (sharedSigners (front ++ e :: other) limits).result = outcome)) ∧
    (∀ p ∈ content, ∀ q ∈ content, ∀ one two, answer p = .ok one → answer q = .ok two →
      one.signers = [] → two.signers ≠ [] →
      ¬ SamePrints one.signers two.signers ∧ ∃ failure, outcome = .error failure) := by
  intro content answer outcome
  have hanswers : content.map answer =
      (entries.filter Entry.isContent).map (answerTo entries limits) :=
    map_content_read entries limits
  have houtcome : outcome = sharedAnswers (content.map answer) := by
    rw [hanswers]
    exact sharedSigners_eq entries limits
  have hread : ∀ p ∈ content, ∀ checked, answer p = .ok checked → checked.name = p.1.name ∧
      (checked.signers = [] ∨ checked.signers = coveringSigners entries p.1.name) := by
    intro p hp checked hchecked
    have hindex := List.mem_zipIdx_iff_getElem?.1 (List.mem_filter.1 hp).1
    have hanswer := (read_fresh_eq_answerTo hindex limits).symm.trans hchecked
    refine ⟨name_of_answerTo hanswer, ?_⟩
    rw [signers_of_answerTo hanswer]
    split
    · exact Or.inl rfl
    · exact Or.inr rfl
  refine ⟨?_, hread, ?_, ?_⟩
  · intro hnone
    rw [houtcome, hnone]
    rfl
  · intro first rest hcontent
    have hfirst : first ∈ content := hcontent ▸ List.mem_cons_self
    refine ⟨?_, ?_, ?_⟩
    · intro failure hfailure
      rw [houtcome, hcontent, List.map_cons, hfailure]
      rfl
    · intro one hone
      rw [hone]
      refine ⟨?_, ?_⟩
      · intro before p after hrest hbefore
        have hp : p ∈ content := by simp [hcontent, hrest]
        have hagree : ∀ b ∈ before.map answer, Agree (.ok one) b :=
          List.forall_mem_map.2 hbefore
        rw [houtcome, hcontent, hrest, List.map_cons, List.map_append, List.map_cons, hone]
        refine ⟨?_, ?_⟩
        · intro failure hfailure
          rw [hfailure]
          exact sharedAnswers_of_objection hagree rfl
        · intro two htwo hdiffer
          rw [htwo, ← (hread first hfirst one hone).1, ← (hread p hp two htwo).1]
          exact sharedAnswers_of_objection hagree (objection?_of_not_samePrints hdiffer)
      · intro hrest
        rw [houtcome, hcontent, List.map_cons, hone,
          sharedAnswers_of_agree (List.forall_mem_map.2 hrest)]
        exact ⟨_, rfl, SignerSet.signers_ofList _⟩
    · intro front e tail other hsplit he hdiffer hmetadata
      have hanswer : answer (e, front.length) = answerTo entries limits e :=
        read_fresh_eq_answerTo (by simp [hsplit]) limits
      have hhead : ((entries.filter Entry.isContent).map (answerTo entries limits)).head? =
          some (answer first) := by
        rw [← hanswers, hcontent]
        rfl
      rw [hanswer] at hdiffer
      subst hsplit
      exact sharedSigners_ignores_rest he hmetadata hhead hdiffer
  · intro p hp q hq one two hone htwo hnobody hsomebody
    have hdiffer : ¬ SamePrints one.signers two.signers := by
      intro hsame
      rw [hnobody] at hsame
      exact hsomebody hsame.eq_nil
    refine ⟨hdiffer, ?_⟩
    rw [houtcome]
    refine exists_sharedAnswers_eq_error (List.mem_map_of_mem hp) (List.mem_map_of_mem hq) ?_
    rw [hone, htwo, Agree.ok_iff]
    exact hdiffer

/-! ### The signed archive -/

theorem content_signedArchive : signedArchive.filter Entry.isContent = [signedFile] := by
  decide

theorem sharedSigners_signedArchive :
    (sharedSigners signedArchive .none).result =
      .ok (.ofList [⟨archiveSigner.certificate, []⟩]) := by
  rw [sharedSigners_eq, content_signedArchive, List.map_singleton, answerTo_signedArchive]
  rfl

/-- A file that nobody signed. -/
def strayFile : Entry := ⟨"b", .octets [] true⟩

theorem coveringSigners_strayFile : coveringSigners signedArchive strayFile.name = [] := by
  rw [coveringSigners, manifest?_signedArchive, pairedBlocks_signedArchive]
  simp only [List.flatMap_singleton, PairedBlock.chainsFor_of_signed signed_archiveBlock]
  rfl

theorem answerTo_strayFile :
    answerTo signedArchive .none strayFile = .ok ⟨"b", 0, []⟩ := by
  obtain ⟨s, hs⟩ := verifySignatures_signedArchive
  have hload : verifySignatures signedArchive SizeLimits.none.metadata = .ok s := hs
  have hloaded := loaded_of_verifySignatures hs
  have hpayload : strayFile.payload = .octets [] true := rfl
  have hfits : Admits SizeLimits.none.entry ([] : Bytes).length := Or.inl rfl
  rw [answerTo_of_load hload, hloaded.checkEntry_octets hpayload hfits, hloaded.signersOf_eq,
    coveringSigners_strayFile, ite_self]
  rfl

/-- With a file behind it that nobody signed the signed archive has no shared signers. -/
theorem strayFile_decides :
    (sharedSigners (signedArchive ++ [strayFile]) .none).result =
      .error (.disagreement ⟨"a", [""], "b", []⟩) := by
  have hload : verifySignatures (signedArchive ++ [strayFile]) SizeLimits.none.metadata =
      verifySignatures signedArchive SizeLimits.none.metadata := by
    have hstray : Uninvolved (signedArchive ++ []) strayFile :=
      uninvolved_of_isContent (by decide)
    have hinsert := verifySignatures_insert hstray SizeLimits.none.metadata
    rwa [List.append_nil] at hinsert
  have hcontent : ((signedArchive ++ [strayFile]).zipIdx.filter fun p => p.1.isContent) =
      [(signedFile, 3), (strayFile, 4)] := by decide
  have hfile : (((SignedArchive.opened (signedArchive ++ [strayFile])).limitedTo .none).read
      3).result = .ok ⟨"a", 1, [⟨archiveSigner.certificate, []⟩]⟩ := by
    rw [read_fresh_eq_answerTo (e := signedFile) rfl, answerTo_congr hload]
    exact answerTo_signedArchive
  have hstray : (((SignedArchive.opened (signedArchive ++ [strayFile])).limitedTo .none).read
      4).result = .ok ⟨"b", 0, []⟩ := by
    rw [read_fresh_eq_answerTo (e := strayFile) rfl, answerTo_congr hload]
    exact answerTo_strayFile
  obtain ⟨_, _, hdecides, _⟩ := first_difference_decides (signedArchive ++ [strayFile]) .none
  obtain ⟨_, hone, _⟩ := hdecides _ _ hcontent
  obtain ⟨hother, _⟩ := hone _ hfile
  obtain ⟨_, hdiffers⟩ := hother [] _ [] rfl (fun _ h => absurd h List.not_mem_nil)
  exact hdiffers _ hstray fun hsame => List.cons_ne_nil _ _ hsame.symm.eq_nil

end JarSigners
