import JarSigners.Proofs.Asn1.RoundTrip
import JarSigners.SignatureBlock
import JarSigners.Signing.Key
import Mathlib.FieldTheory.Finite.Basic
import Mathlib.NumberTheory.LucasLehmer

/-!
# RSA signatures verify

What is signed with an exponent that undoes the public one verifies with the public key
(`RsaKey.verifies_sign?`). For the product of two primes such an exponent is known from Fermat's
little theorem (`pow_mod_eq_self`). The padding of a digest can be told from the digest, so a
signature verifies no two digests (`RsaKey.verifies_unique`).
-/

set_option autoImplicit false

namespace JarSigners

/-- The shortest numeral of a number does not begin with a zero. -/
theorem Bytes.pow_length_ofNat_le {n : Nat} (h : n ≠ 0) : 256 ^ ((ofNat n).length - 1) ≤ n := by
  by_contra hlt
  have hshorter := length_ofNat_le (Nat.lt_of_not_le hlt)
  have hsome : 0 < (ofNat n).length := List.length_pos_of_ne_nil (ofNat_ne_nil h)
  omega

namespace PublicKey

/-! ### Exponents that undo each other -/

/-- A power that is one more than a multiple of `p - 1` changes nothing modulo a prime. -/
theorem pow_modEq_self {p k : Nat} (hp : p.Prime) (x : Nat) :
    x ^ ((p - 1) * k + 1) ≡ x [MOD p] := by
  by_cases hx : p ∣ x
  · have hzero : x ≡ 0 [MOD p] := (Nat.modEq_zero_iff_dvd).2 hx
    have hpow : x ^ ((p - 1) * k + 1) ≡ 0 [MOD p] :=
      (Nat.modEq_zero_iff_dvd).2 (Dvd.dvd.pow hx (Nat.succ_ne_zero _))
    exact hpow.trans hzero.symm
  · have hcoprime : Nat.Coprime x p := (Nat.coprime_comm.1 ((hp.coprime_iff_not_dvd).2 hx))
    have hfermat : x ^ (p - 1) ≡ 1 [MOD p] := by
      have htotient := Nat.ModEq.pow_totient hcoprime
      rwa [Nat.totient_prime hp] at htotient
    calc x ^ ((p - 1) * k + 1) = (x ^ (p - 1)) ^ k * x := by rw [pow_succ, pow_mul]
      _ ≡ 1 ^ k * x [MOD p] := (hfermat.pow k).mul_right x
      _ = x := by rw [one_pow, one_mul]

/-- So neither does it modulo the product of two primes. -/
theorem pow_mod_eq_self {p q n : Nat} (hp : p.Prime) (hq : q.Prime) (hne : p ≠ q)
    (hpower : n % (p - 1) = 1) (hpower' : n % (q - 1) = 1) {x : Nat} (hx : x < p * q) :
    x ^ n % (p * q) = x := by
  have hmodulo : ∀ {r : Nat}, r.Prime → n % (r - 1) = 1 → x ^ n ≡ x [MOD r] := by
    intro r hr hpower
    have hsplit := Nat.div_add_mod n (r - 1)
    rw [hpower] at hsplit
    rw [← hsplit]
    exact pow_modEq_self hr x
  have hcoprime : Nat.Coprime p q := (Nat.coprime_primes hp hq).2 hne
  have hboth : x ^ n ≡ x [MOD p * q] :=
    (Nat.modEq_and_modEq_iff_modEq_mul hcoprime).1 ⟨hmodulo hp hpower, hmodulo hq hpower'⟩
  rw [Nat.ModEq, Nat.mod_eq_of_lt hx] at hboth
  exact hboth

/-! ### Signatures -/

namespace RsaKey

variable {key : RsaKey} {privateExponent : Nat}

/-- A padded message is as long as the modulus and begins with a zero. -/
theorem padded?_eq_some {length : Nat} {a : Digest.Algorithm} {hashed message : Bytes}
    (h : padded? length a hashed = some message) :
    ∃ rest, message = 0 :: rest ∧ rest.length = length - 1 := by
  simp only [padded?] at h
  split at h
  next hfits =>
    injection h with h
    generalize digestInfo a hashed = info at h hfits
    refine ⟨1 :: List.replicate (length - info.length - 3) 0xFF ++ 0 :: info, ?_, ?_⟩
    · rw [← h, List.cons_append]
    · rw [List.length_append, List.length_cons, List.length_replicate, List.length_cons]
      omega
  next => cases h

/-- So it stands for a number below the modulus. -/
theorem padded?_lt (hmodulus : key.modulus ≠ 0) {a : Digest.Algorithm} {hashed message : Bytes}
    (h : padded? key.octets a hashed = some message) :
    Bytes.toNatBE message < key.modulus := by
  obtain ⟨rest, rfl, hlength⟩ := padded?_eq_some h
  have hzero : Bytes.toNatBE (0 :: rest) = Bytes.toNatBE rest := by
    rw [Bytes.toNatBE, List.foldl_cons]
    rfl
  have hlt := Bytes.toNatBE_lt rest
  rw [hlength] at hlt
  rw [hzero]
  exact Nat.lt_of_lt_of_le hlt (Bytes.pow_length_ofNat_le hmodulus)

/-- What is signed verifies, if the private exponent undoes the public one. -/
theorem verifies_sign? (hmodulus : key.modulus ≠ 0)
    (hundo : ∀ x < key.modulus, x ^ (privateExponent * key.exponent) % key.modulus = x)
    {a : Digest.Algorithm} {hashed signature : Bytes}
    (h : key.sign? privateExponent a hashed = some signature) :
    key.verifies a hashed signature = true := by
  obtain ⟨message, hmessage, rfl⟩ := Option.map_eq_some_iff.1 h
  have hlt := padded?_lt hmodulus hmessage
  have hpower : powMod key.modulus (Bytes.toNatBE message) privateExponent < key.modulus := by
    rw [powMod_eq]
    exact Nat.mod_lt _ (Nat.pos_of_ne_zero hmodulus)
  have hwidth : powMod key.modulus (Bytes.toNatBE message) privateExponent < 256 ^ key.octets :=
    Nat.lt_trans hpower (Bytes.lt_pow_length_ofNat key.modulus)
  have hundone : powMod key.modulus
      (powMod key.modulus (Bytes.toNatBE message) privateExponent) key.exponent =
        Bytes.toNatBE message := by
    rw [powMod_eq, powMod_eq]
    change (Bytes.toNatBE message ^ privateExponent % key.modulus) ^ key.exponent % key.modulus = _
    rw [← Nat.pow_mod, ← pow_mul]
    exact hundo _ hlt
  simp only [verifies, hmessage, Bytes.length_ofNatBE, Bytes.toNatBE_ofNatBE hwidth, hpower,
    hundone, decide_true, Bool.and_self]

theorem length_sign? {a : Digest.Algorithm} {hashed signature : Bytes}
    (h : key.sign? privateExponent a hashed = some signature) :
    signature.length = key.octets := by
  obtain ⟨message, -, rfl⟩ := Option.map_eq_some_iff.1 h
  exact Bytes.length_ofNatBE _ _

/-! ### A signature is for one digest -/

theorem digestInfo_injective (a : Digest.Algorithm) : Function.Injective (digestInfo a) := by
  intro hashed other h
  have hcontent := congrArg Asn1.Element.content (Asn1.Element.encode_injective h)
  simp only [Asn1.Element.sequence, Asn1.Element.around, List.flatMap_cons, List.flatMap_nil,
    List.append_nil] at hcontent
  have hencoded := Asn1.Element.encode_injective (List.append_cancel_left hcontent)
  exact congrArg Asn1.Element.content hencoded

/-- The octets `FF` of the padding end at a zero, so no two digests are padded to one message. -/
theorem padded?_unique {length : Nat} {a : Digest.Algorithm} {hashed other message : Bytes}
    (h : padded? length a hashed = some message) (hother : padded? length a other = some message) :
    hashed = other := by
  have hpadding : ∀ {hashed : Bytes}, padded? length a hashed = some message →
      (message.drop 2).dropWhile (· == 0xFF) = 0 :: digestInfo a hashed := by
    intro hashed h
    simp only [padded?, Option.ite_none_right_eq_some, Option.some.injEq] at h
    obtain ⟨-, rfl⟩ := h
    rw [List.cons_append, List.cons_append, List.drop_succ_cons, List.drop_succ_cons, List.drop_zero,
      List.dropWhile_append_of_pos (by simp)]
    rfl
  apply digestInfo_injective a
  have hsame := (hpadding h).symm.trans (hpadding hother)
  exact (List.cons.inj hsame).2

/-- A signature verifies one digest at most with a key and an algorithm. -/
theorem verifies_unique {a : Digest.Algorithm} {hashed other signature : Bytes}
    (h : key.verifies a hashed signature = true) (hother : key.verifies a other signature = true) :
    hashed = other := by
  have hmessage : ∀ {hashed : Bytes}, key.verifies a hashed signature = true →
      ∃ message, padded? key.octets a hashed = some message ∧ message.length = key.octets ∧
        Bytes.toNatBE message = powMod key.modulus (Bytes.toNatBE signature) key.exponent := by
    intro hashed h
    unfold verifies at h
    cases hpadded : padded? key.octets a hashed with
    | none => simp [hpadded] at h
    | some message =>
      simp only [hpadded, Bool.and_eq_true, decide_eq_true_eq] at h
      refine ⟨message, rfl, ?_, h.2.symm⟩
      simp only [padded?, Option.ite_none_right_eq_some, Option.some.injEq] at hpadded
      obtain ⟨hroom, rfl⟩ := hpadded
      simp
      omega
  obtain ⟨message, hpadded, hlength, hnumber⟩ := hmessage h
  obtain ⟨message', hpadded', hlength', hnumber'⟩ := hmessage hother
  obtain rfl := Bytes.eq_of_toNatBE_eq (hlength.trans hlength'.symm) (hnumber.trans hnumber'.symm)
  exact padded?_unique hpadded hpadded'

end RsaKey

end PublicKey

end JarSigners
