import JarSigners.Proofs.Signing.Run
import JarSigners.Proofs.Signing.Verified
import JarSigners.Signers.Listing

/-!
# Who is found to have signed an archive

The collector reads the content of an archive in order. As long as every read is granted to the
same signers, these are the outcome; otherwise the first read that fails or that grants other
signers is. So an archive whose signatures are all over all of its files has the signers of its
signatures, in their order.
-/

set_option autoImplicit false

namespace JarSigners

/-! ### Answers that grant the same signers -/

/-- A read that succeeds and finds these signers. -/
def Granted (signers : List Chain) (answer : Except ReadError CheckedEntry) : Prop :=
  ∃ one, answer = .ok one ∧ one.signers = signers

section Granted

variable {signers : List Chain} {before after : List (Except ReadError CheckedEntry)}
  {a b : Except ReadError CheckedEntry}

theorem Granted.agree (ha : Granted signers a) (hb : Granted signers b) : Agree a b := by
  obtain ⟨one, rfl, hone⟩ := ha
  obtain ⟨other, rfl, hother⟩ := hb
  rw [Agree.ok_iff, hone, hother]
  exact .refl signers

theorem sharedAnswers_of_granted {answers : List (Except ReadError CheckedEntry)}
    (hsome : answers ≠ []) (hall : ∀ a ∈ answers, Granted signers a) :
    sharedAnswers answers = .ok (.ofList signers) := by
  cases answers with
  | nil => exact absurd rfl hsome
  | cons first rest =>
    obtain ⟨hfirst, hrest⟩ := List.forall_mem_cons.1 hall
    obtain ⟨one, rfl, hone⟩ := id hfirst
    rw [sharedAnswers_of_agree fun b hb => hfirst.agree (hrest b hb), hone]

/-- Behind reads that grant the same signers a failure is the outcome. -/
theorem sharedAnswers_of_failure (hbefore : ∀ a ∈ before, Granted signers a) (e : ReadError) :
    sharedAnswers (before ++ .error e :: after) = .error (.archive e) := by
  cases before with
  | nil => rfl
  | cons first rest =>
    obtain ⟨hfirst, hrest⟩ := List.forall_mem_cons.1 hbefore
    obtain ⟨one, rfl, -⟩ := id hfirst
    rw [List.cons_append]
    exact sharedAnswers_of_objection (fun b hb => hfirst.agree (hrest b hb)) rfl

/-- Behind reads that grant the same signers one that grants others is the outcome. -/
theorem sharedAnswers_of_others {first other : CheckedEntry} (hfirst : first.signers = signers)
    (hbefore : ∀ a ∈ before, Granted signers a) (hdiffer : ¬ SamePrints signers other.signers) :
    sharedAnswers (.ok first :: (before ++ .ok other :: after)) =
      .error (.disagreement ⟨first.name, (firstByPrint signers).map Chain.displayName,
        other.name, (firstByPrint other.signers).map Chain.displayName⟩) := by
  have hgranted : Granted signers (.ok first) := ⟨first, rfl, hfirst⟩
  subst hfirst
  exact sharedAnswers_of_objection (fun b hb => hgranted.agree (hbefore b hb))
    (objection?_of_not_samePrints hdiffer)

end Granted

/-! ### What is collected -/

/-- What is collected from a file hangs on the answers to the reads of the content in it. -/
theorem ArchiveDraft.Stored.collected {draft : ArchiveDraft} (h : draft.Stored)
    (limits : SizeLimits) :
    (Listing.ofFile limits (.octets (Zip.encode draft))).result =
      (sharedAnswers (((draft.map DraftEntry.entry).filter Entry.isContent).map
        (answerTo (draft.map DraftEntry.entry) limits))).map SignerSet.signers := by
  rw [Listing.ofFile, h.entries_octets, Listing.ofEntries, Listing.ofOutcome, sharedSigners_eq]

namespace SignedDraft

variable {a : SignedDraft} {limits : SizeLimits}

/-- The files that signatures have to cover. -/
def content (a : SignedDraft) : ArchiveDraft :=
  a.rest.filter DraftEntry.isContent

theorem content_entries (h : a.WellFormed) :
    a.entries.filter Entry.isContent = a.content.map DraftEntry.entry := by
  have hfront : ∀ e ∈ a.front, ¬ e.entry.isContent = true := by
    have hmetadata : ∀ {name : String} (octets : Bytes), EntryName.isMetadata name = true →
        ¬ (DraftEntry.file name octets).entry.isContent = true := by
      intro name octets hname
      simp [Entry.isContent, Entry.isMetadata, DraftEntry.entry, DraftEntry.writtenName,
        DraftEntry.file, hname]
    refine forall_mem_front ?_ fun g _ => ⟨?_, ?_⟩
    · exact hmetadata _ EntryName.isMetadata_manifest
    · exact hmetadata _ (Signer.isMetadata_signatureFileName _)
    · exact hmetadata _ (Signer.isMetadata_blockName _)
  have hnone : a.front.filter (Entry.isContent ∘ DraftEntry.entry) = [] :=
    List.filter_eq_nil_iff.2 hfront
  have hrest : a.rest.filter (Entry.isContent ∘ DraftEntry.entry) = a.content :=
    List.filter_congr fun e he => (h.rest e he).isContent_entry
  rw [entries, List.filter_map, draft, List.filter_append, hnone, hrest, List.nil_append]

/-- The answers to the reads of the content, in order. -/
def answers (a : SignedDraft) (limits : SizeLimits) : List (Except ReadError CheckedEntry) :=
  a.content.map fun e => answerTo a.entries limits e.entry

/-- What is collected from an archive hangs on the answers to the reads of its content. -/
theorem collected (h : a.WellFormed) (hstored : a.draft.Stored) (limits : SizeLimits) :
    (Listing.ofFile limits a.file).result =
      (sharedAnswers (a.answers limits)).map SignerSet.signers := by
  have hanswers : (a.entries.filter Entry.isContent).map (answerTo a.entries limits) =
      a.answers limits := by
    rw [content_entries h, List.map_map]
    rfl
  rw [← hanswers]
  exact hstored.collected limits

section Outcomes

variable (h : a.WellFormed) (hstored : a.draft.Stored) {signers : List Chain}

include h hstored

/-- Where all content is granted to the same signers, these are collected. -/
theorem collected_of_granted (hprints : (signers.map Chain.fingerprint).Nodup)
    (hsome : a.content ≠ [])
    (hall : ∀ e ∈ a.content, Granted signers (answerTo a.entries limits e.entry)) :
    (Listing.ofFile limits a.file).result = .ok signers := by
  have hanswers : a.answers limits ≠ [] := by
    rw [answers, Ne, List.map_eq_nil_iff]
    exact hsome
  rw [collected h hstored, sharedAnswers_of_granted hanswers (List.forall_mem_map.2 hall)]
  exact congrArg Except.ok (SignerSet.signers_ofList_of_nodup hprints)

/-- Behind content that is granted to the same signers, a file that cannot be read is fatal. -/
theorem collected_of_failure {before after : ArchiveDraft} {x : DraftEntry} {failure : ReadError}
    (hcontent : a.content = before ++ x :: after)
    (hbefore : ∀ e ∈ before, Granted signers (answerTo a.entries limits e.entry))
    (hfails : answerTo a.entries limits x.entry = .error failure) :
    (Listing.ofFile limits a.file).result = .error (.archive failure) := by
  rw [collected h hstored, answers, hcontent, List.map_append, List.map_cons, hfails,
    sharedAnswers_of_failure (List.forall_mem_map.2 hbefore)]
  rfl

/-- Behind content that is granted to the same signers, a file that is granted to others is held
against the first file. -/
theorem collected_of_others {before after : ArchiveDraft} {first x : DraftEntry}
    {others : List Chain} (hprints : (signers.map Chain.fingerprint).Nodup)
    (hothers : (others.map Chain.fingerprint).Nodup)
    (hcontent : a.content = first :: (before ++ x :: after))
    (hfirst : Granted signers (answerTo a.entries limits first.entry))
    (hbefore : ∀ e ∈ before, Granted signers (answerTo a.entries limits e.entry))
    (hx : Granted others (answerTo a.entries limits x.entry))
    (hdiffer : ¬ SamePrints signers others) :
    (Listing.ofFile limits a.file).result =
      .error (.disagreement ⟨first.name, signers.map Chain.displayName,
        x.name, others.map Chain.displayName⟩) := by
  have hname : ∀ e ∈ a.content, ∀ checked : CheckedEntry,
      answerTo a.entries limits e.entry = .ok checked → checked.name = e.name := by
    intro e he checked hchecked
    have hwritten : e.writtenName = e.name :=
      (h.rest e (List.mem_of_mem_filter he)).writtenName_eq
    exact (name_of_answerTo hchecked).trans hwritten
  obtain ⟨one, hone, hsigners⟩ := hfirst
  obtain ⟨other, hother, rfl⟩ := hx
  have hfirstName := hname first (by rw [hcontent]; exact List.mem_cons_self) one hone
  have hotherName := hname x (by simp [hcontent]) other hother
  rw [collected h hstored, answers, hcontent, List.map_cons, List.map_append, List.map_cons, hone,
    hother, sharedAnswers_of_others hsigners (List.forall_mem_map.2 hbefore) hdiffer,
    firstByPrint_of_nodup hprints, firstByPrint_of_nodup hothers, hfirstName, hotherName]
  rfl

end Outcomes

/-! ### Signers of names -/

/-- The signers of all signatures, in their order. -/
def signers (a : SignedDraft) : List Chain :=
  a.signatures.map fun g => g.signer.chain

theorem signersOf_eq_signers {name : String} (h : ∀ g ∈ a.signatures, name ∈ g.names) :
    a.signersOf name = a.signers := by
  have hall : a.signatures.filter (fun g => name ∈ g.names) = a.signatures :=
    List.filter_eq_self.2 fun g hg => decide_eq_true (h g hg)
  rw [signersOf, hall, signers]

theorem signersOf_eq_nil {name : String} (h : ∀ g ∈ a.signatures, name ∉ g.names) :
    a.signersOf name = [] := by
  have hnone : a.signatures.filter (fun g => name ∈ g.names) = [] :=
    List.filter_eq_nil_iff.2 fun g hg => by simpa using h g hg
  rw [signersOf, hnone, List.map_nil]

/-- The manifest states the digest that an entry has. -/
def States (a : SignedDraft) (e : DraftEntry) : Prop :=
  ∃ old, (e.name, old) ∈ a.stated ∧
    Digest.sha256.digest old = Digest.sha256.digest e.writtenContent

/-! ### Answers of an archive whose signatures cover what they are over -/

section Covered

variable (h : a.WellFormed) (hlimits : limits.Hold a.draft)
  (honest : ∀ g ∈ a.signatures, g.signer.Honest) (hcovers : a.Covers)
  (hdistinct : (a.signers.map Chain.fingerprint).Nodup) {e : DraftEntry} (he : e ∈ a.content)

include h hlimits honest hcovers hdistinct he

/-- A file is granted to its signers if the manifest states its digest, or if there are none. -/
theorem granted_signersOf (hstates : a.signersOf e.name ≠ [] → a.States e) :
    Granted (a.signersOf e.name) (answerTo a.entries limits e.entry) := by
  obtain ⟨hmem, hcontent⟩ := List.mem_filter.1 he
  rw [DraftEntry.isContent, Bool.and_eq_true, Option.isSome_iff_exists, Bool.not_eq_true'] at hcontent
  obtain ⟨⟨content, hcontent⟩, hoff⟩ := hcontent
  by_cases hnobody : a.signersOf e.name = []
  · rw [answerTo_unsigned h hlimits honest hcovers hdistinct.of_map hmem hcontent hoff hnobody,
      hnobody]
    exact ⟨_, rfl, rfl⟩
  · obtain ⟨old, hold, hsame⟩ := hstates hnobody
    rw [DraftEntry.writtenContent, hcontent, Option.getD_some] at hsame
    rw [answerTo_signed h hlimits honest hcovers hdistinct.of_map hmem hcontent hoff hnobody hold,
      if_pos hsame]
    exact ⟨_, rfl, rfl⟩

/-- A file that is signed and has another digest than the manifest states cannot be read. -/
theorem answerTo_altered (hsigned : a.signersOf e.name ≠ []) {old : Bytes}
    (hold : (e.name, old) ∈ a.stated)
    (hdiffers : Digest.sha256.digest old ≠ Digest.sha256.digest e.writtenContent) :
    answerTo a.entries limits e.entry = .error (.untrusted (.entryDiffers e.name .sha256)) := by
  obtain ⟨hmem, hcontent⟩ := List.mem_filter.1 he
  rw [DraftEntry.isContent, Bool.and_eq_true, Option.isSome_iff_exists, Bool.not_eq_true'] at hcontent
  obtain ⟨⟨content, hcontent⟩, hoff⟩ := hcontent
  rw [DraftEntry.writtenContent, hcontent, Option.getD_some] at hdiffers
  rw [answerTo_signed h hlimits honest hcovers hdistinct.of_map hmem hcontent hoff hsigned hold,
    if_neg hdiffers]

end Covered

end SignedDraft

/-! ### Signers that are independent of each other -/

/-- Signers whose names can name files and who are honest, where those whose names are not alike
have different certificates. The reader tells signers apart by SHA-256 digests of their
certificates, so it is part of the assumption that this hash has no collision among these
(`free`). -/
structure Signer.Independent (signers : List Signer) : Prop where
  named : ∀ s ∈ signers, s.NamesFiles
  honest : ∀ s ∈ signers, s.Honest
  different : ∀ s ∈ signers, ∀ t ∈ signers, Text.alike s.keyName t.keyName = false →
    s.certificate ≠ t.certificate
  free : Digest.CollisionFree (signers.map fun s => s.certificate.encode)

/-- Some of them are independent too, also if they are named several times. -/
theorem Signer.Independent.mono {signers others : List Signer} (h : Independent signers)
    (hothers : ∀ s ∈ others, s ∈ signers) : Independent others where
  named := fun s hs => h.named s (hothers s hs)
  honest := fun s hs => h.honest s (hothers s hs)
  different := fun s hs t ht => h.different s (hothers s hs) t (hothers t ht)
  free := h.free.mono (List.map_subset _ hothers)

/-- Two signers are independent if both are honest and have certificates with different digests. -/
theorem Signer.independent_pair {s t : Signer} (hnamed : ∀ x ∈ [s, t], x.NamesFiles)
    (hs : s.Honest) (ht : t.Honest)
    (hdiffers : Digest.sha256.digest s.certificate.encode ≠
      Digest.sha256.digest t.certificate.encode) : Independent [s, t] where
  named := hnamed
  honest := List.forall_mem_cons.2 ⟨hs, List.forall_mem_singleton.2 ht⟩
  different := by
    have hne : s.certificate ≠ t.certificate := fun hsame => hdiffers (by rw [hsame])
    intro x hx y hy hapart
    simp only [List.mem_cons, List.not_mem_nil, or_false] at hx hy
    rcases hx with rfl | rfl <;> rcases hy with rfl | rfl
    · exact absurd (Text.alike_refl _) (Bool.eq_false_iff.1 hapart)
    · exact hne
    · exact hne.symm
    · exact absurd (Text.alike_refl _) (Bool.eq_false_iff.1 hapart)
  free := by
    refine Digest.collisionFree_of_nodup ?_
    simpa using hdiffers

theorem Signer.encoding_chain (s : Signer) : s.chain.encoding = s.certificate.encode := by
  rw [Chain.encoding, chain, Chain.certificates, List.flatMap_singleton]

theorem Signer.Independent.fingerprint_ne {signers : List Signer} (h : Independent signers)
    {s t : Signer} (hs : s ∈ signers) (ht : t ∈ signers)
    (hapart : Text.alike s.keyName t.keyName = false) :
    s.chain.fingerprint ≠ t.chain.fingerprint := by
  intro hprint
  rw [Chain.fingerprint, Chain.fingerprint, encoding_chain, encoding_chain] at hprint
  have hencode := h.free _ (List.mem_map_of_mem hs) _ (List.mem_map_of_mem ht) hprint
  have hread := (h.honest s hs).ofBytes?_encode
  rw [hencode, (h.honest t ht).ofBytes?_encode, Option.some.injEq] at hread
  exact h.different s hs t ht hapart hread.symm

namespace SignedDraft

variable {a : SignedDraft}

/-- The signatures of independent signers have different fingerprints. -/
theorem nodup_prints (h : a.WellFormed) {signers : List Signer}
    (hindependent : Signer.Independent signers) (hof : ∀ g ∈ a.signatures, g.signer ∈ signers) :
    (a.signers.map Chain.fingerprint).Nodup := by
  rw [SignedDraft.signers, List.map_map, List.Nodup, List.pairwise_map]
  refine h.apart.imp_of_mem fun hg hlater hapart => ?_
  exact hindependent.fingerprint_ne (hof _ hg) (hof _ hlater) hapart

end SignedDraft

end JarSigners
