import JarSigners.Proofs.Archive.Coverage
import JarSigners.Proofs.SignatureBlock.Signature
import JarSigners.Proofs.Signing.RsaSigner

/-!
# Blocks are verified as a whole

A block stands for the chains of its signers only if there is a signer and every signature in it
is accepted; otherwise the first signature that is refused, in the order of the signers, says
why.
-/

set_option autoImplicit false

namespace JarSigners.SignatureBlock

variable {ctx : BlockContext} {block : String} {octets : Bytes} {m : SignedData}

/-- Keeping first occurrences is erasing duplicates. -/
theorem firsts_eq_eraseDups {α : Type} [BEq α] [LawfulBEq α] (items : List α) :
    firsts items = items.eraseDups := by
  induction items using List.reverseRecOn with
  | nil => rfl
  | append_singleton items x ih =>
    rw [firsts_concat, List.eraseDups_append, ← ih]
    by_cases hx : x ∈ items
    · simp [mem_firsts, hx, List.removeAll]
    · simp [mem_firsts, hx, List.removeAll, List.eraseDups_cons]

/-- Some octets are a signed message. -/
def Decodes (octets : Bytes) (m : SignedData) : Prop :=
  ∃ envelope, Envelope.ofBytes? octets = some envelope ∧ envelope.kind = signedDataKind ∧
    SignedData.ofElement? envelope.content = some m

theorem message_eq_ok_iff : message block octets = .ok m ↔ Decodes octets m := by
  rw [message, Decodes]
  cases Envelope.ofBytes? octets with
  | none => simp
  | some envelope =>
    by_cases hkind : envelope.kind = signedDataKind
    · simp only [hkind, if_true, Option.some.injEq, exists_eq_left']
      cases SignedData.ofElement? envelope.content <;> simp
    · simp [hkind]

/-- Checking all signatures succeeds with the certificates that they are accepted with. -/
theorem mapM_signerChain_eq_ok_iff {pool : List Certificate} {signers : List SignerInfo}
    {found : List Chain} :
    signers.mapM (signerChain ctx pool) = .ok found ↔
      ∃ certificates, List.Forall₂ (Accepts ctx pool) signers certificates ∧
        found = certificates.map (Chain.climb pool) :=
  Steps.mapM_eq_ok_iff_forall₂ fun _ _ => signerChain_eq_ok_iff

theorem messageChains_eq_ok_iff {found : List Chain} :
    messageChains ctx m = .ok found ↔ m.signers ≠ [] ∧
      ∃ certificates, List.Forall₂ (Accepts ctx m.certificates) m.signers certificates ∧
        found = (certificates.map (Chain.climb m.certificates)).eraseDups := by
  rw [messageChains, Steps.bind_eq_ok_iff]
  simp only [mapM_signerChain_eq_ok_iff, firsts_eq_eraseDups]
  constructor
  · rintro ⟨_, ⟨certificates, haccepts, rfl⟩, hfound⟩
    split at hfound
    · cases hfound
    next hsome =>
      refine ⟨?_, certificates, haccepts, (Except.ok.inj hfound).symm⟩
      rintro hnone
      rw [hnone, List.forall₂_nil_left_iff] at haccepts
      simp [haccepts] at hsome
  · rintro ⟨hsome, certificates, haccepts, rfl⟩
    refine ⟨_, ⟨certificates, haccepts, rfl⟩, if_neg ?_⟩
    intro hnone
    rw [List.isEmpty_iff, List.map_eq_nil_iff] at hnone
    rw [hnone, List.forall₂_nil_right_iff] at haccepts
    exact hsome haccepts

/-- Checking all signatures fails as the first that is refused, behind signatures that are
accepted. -/
theorem mapM_signerChain_eq_error_iff {pool : List Certificate} {signers : List SignerInfo}
    {failure : TrustFailure} :
    signers.mapM (signerChain ctx pool) = .error failure ↔
      ∃ before s after, signers = before ++ s :: after ∧
        (∀ t ∈ before, ∃ certificate, Accepts ctx pool t certificate) ∧
        Refuses ctx pool s failure := by
  have haccepts : ∀ t, (∃ chain, signerChain ctx pool t = .ok chain) ↔
      ∃ certificate, Accepts ctx pool t certificate := by
    intro t
    simp only [signerChain_eq_ok_iff]
    constructor
    · rintro ⟨_, certificate, h, -⟩
      exact ⟨certificate, h⟩
    · rintro ⟨certificate, h⟩
      exact ⟨_, certificate, h, rfl⟩
  simp only [Steps.mapM_eq_error_iff, haccepts, signerChain_eq_error_iff]

theorem messageChains_eq_error_iff {failure : TrustFailure} :
    messageChains ctx m = .error failure ↔
      (m.signers = [] ∧ failure = .invalidBlock ctx.block .noSigners) ∨
      ∃ before s after, m.signers = before ++ s :: after ∧
        (∀ t ∈ before, ∃ certificate, Accepts ctx m.certificates t certificate) ∧
        Refuses ctx m.certificates s failure := by
  rw [← mapM_signerChain_eq_error_iff, messageChains]
  cases hall : m.signers.mapM (signerChain ctx m.certificates) with
  | error e =>
    have hsome : m.signers ≠ [] := by
      intro hnone
      rw [hnone] at hall
      cases hall
    simp [hsome]
  | ok found =>
    have hnone : found = [] ↔ m.signers = [] := by
      have hlength := (Steps.forall₂_of_mapM_eq_ok hall).length_eq
      rw [← List.length_eq_zero_iff, ← hlength, List.length_eq_zero_iff]
    by_cases hfound : found = []
    · simp [hfound, hnone.1 hfound, eq_comm (a := failure)]
    · simp [hfound, mt hnone.2 hfound]

/-- A block that holds a signed message stands for the chains of its signers, in their order and
each once, exactly if there are signers and all their signatures are accepted. Otherwise it is
refused for want of signers, or as its first signature that is refused. -/
theorem block_verified_as_a_whole (ctx : BlockContext) {octets : Bytes} {m : SignedData}
    (hdecodes : Decodes octets m) :
    (∀ found, chains ctx octets = .ok found ↔ m.signers ≠ [] ∧
      ∃ certificates, List.Forall₂ (Accepts ctx m.certificates) m.signers certificates ∧
        found = (certificates.map (Chain.climb m.certificates)).eraseDups) ∧
    (∀ failure, chains ctx octets = .error failure ↔
      (m.signers = [] ∧ failure = .invalidBlock ctx.block .noSigners) ∨
      ∃ before s after, m.signers = before ++ s :: after ∧
        (∀ t ∈ before, ∃ certificate, Accepts ctx m.certificates t certificate) ∧
        Refuses ctx m.certificates s failure) := by
  have hchains : chains ctx octets = messageChains ctx m := by
    rw [chains, message_eq_ok_iff.2 hdecodes, Steps.ok_bind]
  rw [hchains]
  exact ⟨fun _ => messageChains_eq_ok_iff, fun _ => messageChains_eq_error_iff⟩

/-- The block of a signer stands for the signer's chain, and its signature is accepted. -/
theorem block_of_first_verified :
    let ctx : BlockContext := ⟨"META-INF/FIRST.RSA", "META-INF/FIRST.SF", [97]⟩
    let m := Signer.first.messageFor false ctx.content
    Decodes (Signer.first.block false ctx.content) m ∧
      chains ctx (Signer.first.block false ctx.content) = .ok [Signer.first.chain] ∧
      m.signers ≠ [] ∧
      ∃ certificates, List.Forall₂ (Accepts ctx m.certificates) m.signers certificates ∧
        [Signer.first.chain] = (certificates.map (Chain.climb m.certificates)).eraseDups := by
  intro ctx m
  have honest := Signer.honest_first
  have hdecodes : Decodes (Signer.first.block false ctx.content) m :=
    message_eq_ok_iff.1 (Signer.message_block ctx.block honest.read (honest.fits ctx.content))
  have hchains : chains ctx (Signer.first.block false ctx.content) = .ok [Signer.first.chain] :=
    Signer.chains_block honest
  exact ⟨hdecodes, hchains, ((block_verified_as_a_whole ctx hdecodes).1 _).1 hchains⟩

end JarSigners.SignatureBlock
