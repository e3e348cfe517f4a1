import JarSigners.Proofs.SignatureBlock.Verification

/-!
# A block is bound to one content

Signed attributes state the digest of the content, and a signature with an RSA key verifies one
digest at most. So a block in which every signer has signed attributes or an RSA key is accepted
with contents of one digest only, and stands for the same chains with each of them
(`accepted_with_one_digest`). A signature with a key on a curve alone does not bind: nothing says
that it verifies no second digest.
-/

set_option autoImplicit false

namespace JarSigners.SignatureBlock

open Digest (Algorithm)

variable {ctx other : BlockContext} {pool : List Certificate} {s : SignerInfo}

/-- A signer has signed attributes, or means a certificate with an RSA key. -/
def Binds (pool : List Certificate) (s : SignerInfo) : Prop :=
  s.signedAttributes ≠ none ∨
    ∀ c, Finds pool s.id c → c.body.publicKey.algorithm.oid = PublicKey.RsaKey.algorithm

theorem StatesDigest.unique {attributes : List MessageAttribute} {stated found : Bytes}
    (h : StatesDigest attributes stated) (hfound : StatesDigest attributes found) :
    stated = found := by
  rw [← statedDigest?_eq_some_iff] at h hfound
  exact Option.some.inj (h.symm.trans hfound)

theorem Finds.unique {id : SignerId} {c d : Certificate} (hc : Finds pool id c)
    (hd : Finds pool id d) : c = d := by
  rw [finds_iff] at hc hd
  exact Option.some.inj (hc.symm.trans hd)

/-- Attributes that cover two contents state the digest of both. -/
theorem Covers.digest_eq {a : Algorithm} {attributes : List MessageAttribute}
    {covered covered' : Bytes} (h : Covers ctx a (some attributes) covered)
    (hother : Covers other a (some attributes) covered') :
    a.digest ctx.content = a.digest other.content := by
  cases h with
  | attributes hstates =>
    cases hother with
    | attributes hstates' => exact hstates.unique hstates'

/-- What an RSA key verifies with one signature has one digest. -/
theorem VerifiedBy.unique {info : PublicKeyInfo} {verifies verifies' : Algorithm → Bytes → Bytes → Bool}
    (hrsa : info.algorithm.oid = PublicKey.RsaKey.algorithm) (h : VerifiedBy info verifies)
    (h' : VerifiedBy info verifies') {a : Algorithm} {hashed hashed' signature : Bytes}
    (htrue : verifies a hashed signature = true) (htrue' : verifies' a hashed' signature = true) :
    hashed = hashed' := by
  have hkey : ∀ {verifies : Algorithm → Bytes → Bytes → Bool} {hashed : Bytes},
      VerifiedBy info verifies → verifies a hashed signature = true →
        ∃ key, PublicKey.RsaKey.ofInfo? info = some key ∧
          key.verifies a hashed signature = true := by
    intro verifies hashed hverified htrue
    cases hverified with
    | rsa => exact (Option.any_eq_true _ _).1 htrue
    | p256 hkind | p384 hkind => exact absurd (hkind.symm.trans hrsa) ecdsa_ne_rsa
  obtain ⟨key, hread, hverifies⟩ := hkey h htrue
  obtain ⟨key', hread', hverifies'⟩ := hkey h' htrue'
  obtain rfl := Option.some.inj (hread.symm.trans hread')
  exact PublicKey.RsaKey.verifies_unique hverifies hverifies'

/-- A signature that binds is accepted with contents of one digest. -/
theorem Accepts.digest_eq {c d : Certificate} (hbinds : Binds pool s) (h : Accepts ctx pool s c)
    (hother : Accepts other pool s d) :
    ∃ a : Algorithm, a.oid = s.digestAlgorithm.oid ∧
      a.digest ctx.content = a.digest other.content := by
  obtain ⟨a, covered, verifies, hoid, hcovers, hkey, htrue⟩ := h.verified
  obtain ⟨a', covered', verifies', hoid', hcovers', hkey', htrue'⟩ := hother.verified
  obtain rfl := Algorithm.oid_inj a (Algorithm.mem_all a) a' (Algorithm.mem_all a')
    (hoid.trans hoid'.symm)
  obtain rfl := h.found.unique hother.found
  refine ⟨a, hoid, ?_⟩
  cases hattributes : s.signedAttributes with
  | some attributes =>
    rw [hattributes] at hcovers hcovers'
    exact hcovers.digest_eq hcovers'
  | none =>
    have hrsa := hbinds.resolve_left (fun hsome => hsome hattributes) c h.found
    rw [hattributes] at hcovers hcovers'
    cases hcovers with
    | content =>
      cases hcovers' with
      | content => exact hkey.unique hrsa hkey' htrue htrue'

/-- Whatever the content, signatures are accepted with the certificates that their signers mean. -/
theorem certificates_unique {signers : List SignerInfo} {certificates others : List Certificate}
    (h : List.Forall₂ (Accepts ctx pool) signers certificates)
    (hother : List.Forall₂ (Accepts other pool) signers others) : certificates = others := by
  induction h generalizing others with
  | nil => exact (List.forall₂_nil_left_iff.1 hother).symm
  | cons haccepts _ ih =>
    cases hother with
    | cons haccepts' hrest => rw [haccepts.found.unique haccepts'.found, ih hrest]

/-- A block that binds all of its signers to their content and that is accepted with two contents
is accepted with two contents of one digest, by the digest algorithm of each signer, and stands
for the same chains both times. -/
theorem accepted_with_one_digest {octets : Bytes} {m : SignedData} (hdecodes : Decodes octets m)
    (hbinds : ∀ s ∈ m.signers, Binds m.certificates s) {found found' : List Chain}
    (h : chains ctx octets = .ok found) (hother : chains other octets = .ok found') :
    (∀ s ∈ m.signers, ∃ a : Algorithm, a.oid = s.digestAlgorithm.oid ∧
      a.digest ctx.content = a.digest other.content) ∧ found = found' := by
  rw [chains, message_eq_ok_iff.2 hdecodes, Steps.ok_bind, messageChains_eq_ok_iff] at h hother
  obtain ⟨-, certificates, haccepts, rfl⟩ := h
  obtain ⟨-, others, haccepts', rfl⟩ := hother
  obtain rfl := certificates_unique haccepts haccepts'
  refine ⟨fun s hs => ?_, rfl⟩
  obtain ⟨c, -, hc⟩ := (Steps.exists_fellow haccepts).1 s hs
  obtain ⟨d, -, hd⟩ := (Steps.exists_fellow haccepts').1 s hs
  exact hc.digest_eq (hbinds s hs) hd

/-- What a signer with an RSA key writes binds. -/
theorem binds_messageFor {signer : Signer}
    (hrsa : signer.certificate.body.publicKey.algorithm.oid = PublicKey.RsaKey.algorithm)
    (withAttributes : Bool) (content : Bytes) :
    ∀ s ∈ (signer.messageFor withAttributes content).signers,
      Binds (signer.messageFor withAttributes content).certificates s := by
  rw [Signer.messageFor_eq]
  intro s hs
  refine Or.inr fun c hfound => ?_
  have hpool : c ∈ [signer.certificate] := List.mem_of_find?_eq_some (finds_iff.1 hfound)
  rw [List.mem_singleton.1 hpool]
  exact hrsa

/-- Blocks of one signer with and without signed attributes, accepted in two places. -/
theorem first_accepted_with_one_digest :
    let here : BlockContext := ⟨"META-INF/FIRST.RSA", "META-INF/FIRST.SF", [97]⟩
    let there : BlockContext := ⟨"META-INF/COPY.RSA", "META-INF/COPY.SF", [97]⟩
    let plain := Signer.first.messageFor false [97]
    let signed := Signer.first.messageFor true [97]
    (chains here (Signer.first.block false [97]) = .ok [Signer.first.chain] ∧
      ∀ s ∈ plain.signers, ∃ a : Algorithm, a.oid = s.digestAlgorithm.oid ∧
        a.digest here.content = a.digest there.content) ∧
    (chains here (Signer.first.block true [97]) = .ok [Signer.first.chain] ∧
      ∀ s ∈ signed.signers, ∃ a : Algorithm, a.oid = s.digestAlgorithm.oid ∧
        a.digest here.content = a.digest there.content) := by
  intro here there plain signed
  have honest := Signer.honest_first
  have hfits : (Signer.first.block true [97]).length ≤ Asn1.maxContent := by decide +kernel
  have hplain : ∀ ctx : BlockContext, ctx.content = [97] →
      chains ctx (Signer.first.block false [97]) = .ok [Signer.first.chain] := by
    intro ctx hcontent
    rw [← hcontent]
    exact Signer.chains_block honest
  have hsigned : ∀ ctx : BlockContext, ctx.content = [97] →
      chains ctx (Signer.first.block true [97]) = .ok [Signer.first.chain] := by
    intro ctx hcontent
    rw [← hcontent] at hfits ⊢
    exact Signer.chains_block_of_keyVerifies honest.read hfits (honest.verifies ctx.block _)
  have hdecodes : Decodes (Signer.first.block false [97]) plain :=
    message_eq_ok_iff.1 (Signer.message_block here.block honest.read (honest.fits [97]))
  have hdecodes' : Decodes (Signer.first.block true [97]) signed :=
    message_eq_ok_iff.1 (Signer.message_block here.block honest.read hfits)
  have hone := accepted_with_one_digest hdecodes (binds_messageFor rfl false [97])
    (hplain here rfl) (hplain there rfl)
  have hone' := accepted_with_one_digest hdecodes' (binds_messageFor rfl true [97])
    (hsigned here rfl) (hsigned there rfl)
  exact ⟨⟨hplain here rfl, hone.1⟩, hsigned here rfl, hone'.1⟩

end JarSigners.SignatureBlock
