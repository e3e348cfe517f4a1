import JarSigners.Proofs.Archive.Coverage
import JarSigners.Proofs.Certificate.Chain
import JarSigners.Proofs.Certificate.Encoding
import JarSigners.Proofs.Certificate.Reading
import JarSigners.Proofs.Signers.Set
import JarSigners.Proofs.Signing.SignatureFile

/-!
# Chains and their fingerprints

What is hashed to name a chain is its certificates one behind the other, and these can be told apart
again if they were decoded (`encoding_inj`). So two chains with one fingerprint are one chain, or
their encodings are two messages with one digest (`fingerprint_eq_iff`). Where there are no such
messages, it does not matter that blocks and archives know a signer by its chain and sets know it by
its fingerprint (`signers_ofList_eq_firsts`).
-/

set_option autoImplicit false

namespace JarSigners

namespace Chain

variable {a b signer : Chain} {signers : List Chain}

/-- A chain of certificates that some octets are read as. -/
def Decoded (c : Chain) : Prop :=
  ∀ certificate ∈ c.certificates, certificate.Decoded

theorem certificates_inj (h : a.certificates = b.certificates) : a = b := by
  obtain ⟨hleaf, hissuers⟩ := List.cons.inj h
  cases a
  cases b
  simp only [mk.injEq]
  exact ⟨hleaf, hissuers⟩

theorem exists_ofCertificates? {certificates : List Certificate} (h : certificates ≠ []) :
    ∃ c, ofCertificates? certificates = some c ∧ c.certificates = certificates := by
  cases certificates with
  | nil => exact absurd rfl h
  | cons leaf issuers => exact ⟨⟨leaf, issuers⟩, rfl, rfl⟩

/-- A chain is determined by its encoding. -/
theorem encoding_inj (ha : a.Decoded) (hb : b.Decoded) (h : a.encoding = b.encoding) : a = b :=
  certificates_inj (Certificate.encodings_inj (fun c hc => (ha c hc).short)
    (fun c hc => (hb c hc).short) h)

/-- Chains with one fingerprint are equal, or they show two messages with one digest. -/
theorem fingerprint_eq_iff (ha : a.Decoded) (hb : b.Decoded) :
    a.fingerprint = b.fingerprint ↔ a = b ∨ (a.encoding ≠ b.encoding ∧
      Digest.sha256.digest a.encoding = Digest.sha256.digest b.encoding) := by
  constructor
  · intro h
    by_cases hencoding : a.encoding = b.encoding
    · exact Or.inl (encoding_inj ha hb hencoding)
    · exact Or.inr ⟨hencoding, h⟩
  · rintro (rfl | ⟨-, hdigest⟩)
    · rfl
    · exact hdigest

/-- Among chains without such messages, the fingerprint tells which chain it is. -/
theorem fingerprint_inj (hdecoded : ∀ c ∈ signers, c.Decoded)
    (hfree : Digest.CollisionFree (signers.map encoding)) (ha : a ∈ signers) (hb : b ∈ signers)
    (h : a.fingerprint = b.fingerprint) : a = b :=
  encoding_inj (hdecoded a ha) (hdecoded b hb)
    (hfree _ (List.mem_map_of_mem ha) _ (List.mem_map_of_mem hb) h)

theorem fingerprint_beq (hdecoded : ∀ c ∈ signers, c.Decoded)
    (hfree : Digest.CollisionFree (signers.map encoding)) (ha : a ∈ signers) (hb : b ∈ signers) :
    (a.fingerprint == b.fingerprint) = (a == b) := by
  rw [Bool.eq_iff_iff, beq_iff_eq, beq_iff_eq]
  exact ⟨fingerprint_inj hdecoded hfree ha hb, congrArg fingerprint⟩

/-- A fingerprint has come exactly if the chain has. -/
theorem fingerprint_mem_map_iff (hdecoded : ∀ c ∈ signer :: signers, c.Decoded)
    (hfree : Digest.CollisionFree ((signer :: signers).map encoding)) :
    signer.fingerprint ∈ signers.map fingerprint ↔ signer ∈ signers := by
  constructor
  · intro h
    obtain ⟨known, hknown, hprint⟩ := List.mem_map.1 h
    rw [← fingerprint_inj hdecoded hfree (List.mem_cons_of_mem _ hknown) List.mem_cons_self hprint]
    exact hknown
  · exact List.mem_map_of_mem

end Chain

namespace SignerSet

variable {signer : Chain} {signers : List Chain}

/-- A set holds a signer exactly if it was made from its chain. -/
theorem contains_ofList (hdecoded : ∀ c ∈ signer :: signers, c.Decoded)
    (hfree : Digest.CollisionFree ((signer :: signers).map Chain.encoding)) :
    (ofList signers).contains signer = signers.contains signer := by
  rw [Bool.eq_iff_iff, contains_eq_true_iff, mem_index_ofList,
    Chain.fingerprint_mem_map_iff hdecoded hfree, List.contains_iff_mem]

/-- A set keeps the signers that remain when equal chains are merged. -/
theorem signers_ofList_eq_firsts (hdecoded : ∀ c ∈ signers, c.Decoded)
    (hfree : Digest.CollisionFree (signers.map Chain.encoding)) :
    (ofList signers).signers = SignatureBlock.firsts signers := by
  induction signers using List.reverseRecOn with
  | nil => rfl
  | append_singleton signers signer ih =>
    have hmem : ∀ c ∈ signer :: signers, c ∈ signers ++ [signer] := by simp +contextual
    have hinit : ∀ c ∈ signers, c ∈ signers ++ [signer] := fun c => List.mem_append_left _
    have hknown := Chain.fingerprint_mem_map_iff (fun c hc => hdecoded c (hmem c hc))
      (hfree.mono (List.map_subset _ hmem))
    rw [ofList_concat, signers_insert, SignatureBlock.firsts_concat,
      ih (fun c hc => hdecoded c (hinit c hc)) (hfree.mono (List.map_subset _ hinit))]
    simp only [mem_index_ofList, SignatureBlock.mem_firsts, hknown]

end SignerSet

namespace Chain

/-- Certificates that were decoded can be told apart when they stand one behind the other, so a
chain of them is determined by what is hashed to name it. Two chains with one fingerprint are the
same, of the same certificates in the same order, or else their encodings differ and have one
digest. Where this does not happen, chains are equal exactly if their fingerprints are, and a set
that is made from signers, which looks at fingerprints only, holds and lists those that there are
when equal chains are merged. -/
theorem chains_are_known_by_fingerprint (xs ys : List Certificate) (hxs : ∀ c ∈ xs, c.Decoded)
    (hys : ∀ c ∈ ys, c.Decoded) (hxsome : xs ≠ []) (hysome : ys ≠ []) :
    (xs.flatMap Certificate.encode = ys.flatMap Certificate.encode → xs = ys) ∧
    (∃ a b, ofCertificates? xs = some a ∧ ofCertificates? ys = some b ∧
      a.fingerprint = Digest.sha256.digest (xs.flatMap Certificate.encode) ∧
      b.fingerprint = Digest.sha256.digest (ys.flatMap Certificate.encode) ∧
      (a.fingerprint = b.fingerprint ↔ xs = ys ∨ (a.encoding ≠ b.encoding ∧
        Digest.sha256.digest a.encoding = Digest.sha256.digest b.encoding)) ∧
      (Digest.CollisionFree [a.encoding, b.encoding] →
        (a.fingerprint == b.fingerprint) = (a == b) ∧ (a.fingerprint = b.fingerprint ↔ xs = ys))) ∧
    ∀ signer signers, (∀ c ∈ signer :: signers, Chain.Decoded c) →
      Digest.CollisionFree ((signer :: signers).map encoding) →
        (SignerSet.ofList signers).contains signer = signers.contains signer ∧
        (SignerSet.ofList signers).signers = SignatureBlock.firsts signers := by
  obtain ⟨a, ha, rfl⟩ := exists_ofCertificates? hxsome
  obtain ⟨b, hb, rfl⟩ := exists_ofCertificates? hysome
  have hsame : a.certificates = b.certificates ↔ a = b := ⟨certificates_inj, congrArg _⟩
  refine ⟨fun h => congrArg _ (encoding_inj hxs hys h), ⟨a, b, ha, hb, rfl, rfl, ?_, ?_⟩, ?_⟩
  · rw [hsame]
    exact fingerprint_eq_iff hxs hys
  · intro hfree
    have hdecoded : ∀ c ∈ [a, b], c.Decoded :=
      List.forall_mem_cons.2 ⟨hxs, List.forall_mem_singleton.2 hys⟩
    have hbeq := fingerprint_beq hdecoded hfree List.mem_cons_self
      (List.mem_cons_of_mem _ List.mem_cons_self)
    rw [hsame, ← beq_iff_eq (a := a.fingerprint), hbeq, beq_iff_eq]
    exact ⟨rfl, Iff.rfl⟩
  · intro signer signers hdecoded hfree
    have hmem : ∀ c ∈ signers, c ∈ signer :: signers := fun c => List.mem_cons_of_mem _
    exact ⟨SignerSet.contains_ofList hdecoded hfree,
      SignerSet.signers_ofList_eq_firsts (fun c hc => hdecoded c (hmem c hc))
        (hfree.mono (List.map_subset _ hmem))⟩

/-- Certificates with one-letter names can be decoded. -/
theorem decoded_lettered :
    (lettered 1 65 66).Decoded ∧ (lettered 2 66 65).Decoded :=
  ⟨⟨(lettered 1 65 66).encode, by decide +kernel⟩, ⟨(lettered 2 66 65).encode, by decide +kernel⟩⟩

/-- The same two certificates in two orders are two chains. They have two fingerprints, and a set of
one of them does not hold the other. -/
theorem two_orders_are_two_chains :
    let leaf := lettered 1 65 66
    let issuer := lettered 2 66 65
    let there : Chain := ⟨leaf, [issuer]⟩
    let back : Chain := ⟨issuer, [leaf]⟩
    there.Decoded ∧ back.Decoded ∧ Digest.CollisionFree [there.encoding, back.encoding] ∧
      [leaf, issuer].flatMap Certificate.encode ≠ [issuer, leaf].flatMap Certificate.encode ∧
      there.fingerprint ≠ back.fingerprint ∧
      (SignerSet.ofList [back]).contains there = false := by
  intro leaf issuer there back
  obtain ⟨hleaf, hissuer⟩ := decoded_lettered
  have hthere : there.Decoded :=
    List.forall_mem_cons.2 ⟨hleaf, List.forall_mem_singleton.2 hissuer⟩
  have hback : back.Decoded :=
    List.forall_mem_cons.2 ⟨hissuer, List.forall_mem_singleton.2 hleaf⟩
  have hdigests : there.fingerprint ≠ back.fingerprint := by
    decide +kernel
  have hfree : Digest.CollisionFree [there.encoding, back.encoding] := by
    refine Digest.collisionFree_of_nodup ?_
    rw [List.map_cons, List.map_singleton, List.nodup_cons, List.mem_singleton]
    exact ⟨hdigests, List.nodup_singleton _⟩
  have hdiffer : [leaf, issuer] ≠ [issuer, leaf] := by decide
  obtain ⟨hencodings, ⟨a, b, ha, hb, -, -, -, hprints⟩, hsets⟩ :=
    chains_are_known_by_fingerprint [leaf, issuer] [issuer, leaf] hthere hback
      (List.cons_ne_nil _ _) (List.cons_ne_nil _ _)
  cases ha
  cases hb
  have hset := (hsets there [back]
    (List.forall_mem_cons.2 ⟨hthere, List.forall_mem_singleton.2 hback⟩) hfree).1
  exact ⟨hthere, hback, hfree, fun h => hdiffer (hencodings h),
    fun h => hdiffer ((hprints hfree).2.1 h), hset⟩

end Chain

end JarSigners
