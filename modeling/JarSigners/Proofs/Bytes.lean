import JarSigners.Bytes
import Mathlib.Algebra.Ring.Nat
import Mathlib.Data.List.Induction

/-!
# Numerals are read back

A big-endian numeral of a fixed width stands for the number modulo a power of 256; one that is
as short as it can be stands for the number itself.
-/

set_option autoImplicit false

namespace JarSigners.Bytes

theorem toNatBE_nil : toNatBE [] = 0 := rfl

theorem toNatBE_append_singleton (bytes : Bytes) (b : UInt8) :
    toNatBE (bytes ++ [b]) = toNatBE bytes * 256 + b.toNat := by
  simp [toNatBE]

/-- A numeral stands for less than the power of 256 of its length. -/
theorem toNatBE_lt (bytes : Bytes) : toNatBE bytes < 256 ^ bytes.length := by
  induction bytes using List.reverseRecOn with
  | nil => simp [toNatBE_nil]
  | append_singleton bytes b ih =>
    have hb := b.toNat_lt
    rw [toNatBE_append_singleton, List.length_append, List.length_singleton, Nat.pow_succ]
    omega

/-- A numeral of a fixed width is read back. -/
theorem toNatBE_ofNatBE {width n : Nat} (h : n < 256 ^ width) :
    toNatBE (ofNatBE width n) = n := by
  induction width generalizing n with
  | zero =>
    have hn : n = 0 := by simpa using h
    simp [ofNatBE, toNatBE, hn]
  | succ width ih =>
    have hdiv : n / 256 < 256 ^ width := by
      rw [Nat.pow_succ] at h
      omega
    have hlow : (n % 256).toUInt8.toNat = n % 256 := by
      simp [Nat.toUInt8_eq, UInt8.toNat_ofNat']
    rw [ofNatBE, toNatBE_append_singleton, ih hdiv, hlow]
    omega

/-- As many octets as the shortest numeral has are enough. -/
theorem lt_pow_length_ofNat (n : Nat) : n < 256 ^ (ofNat n).length := by
  unfold ofNat
  split
  next h => simp [h]
  next h =>
    have hpow : (256 : Nat) ^ (n.log2 / 8 + 1) = 2 ^ (8 * (n.log2 / 8 + 1)) := by
      rw [Nat.pow_mul]
    rw [length_ofNatBE, hpow]
    exact (Nat.log2_lt h).mp (by omega)

/-- The shortest numeral is read back. -/
theorem toNatBE_ofNat (n : Nat) : toNatBE (ofNat n) = n := by
  unfold ofNat
  split
  next h => simp [toNatBE, h]
  next h =>
    have hlt := lt_pow_length_ofNat n
    rw [ofNat, if_neg h, length_ofNatBE] at hlt
    exact toNatBE_ofNatBE hlt

theorem length_ofNat_le {width n : Nat} (h : n < 256 ^ width) : (ofNat n).length ≤ width := by
  unfold ofNat
  split
  · simp
  next hn =>
    have hpow : (256 : Nat) ^ width = 2 ^ (8 * width) := by
      rw [Nat.pow_mul]
    have hlog : n.log2 < 8 * width := (Nat.log2_lt hn).mpr (hpow ▸ h)
    rw [length_ofNatBE]
    omega

theorem length_ofNat_mono {m n : Nat} (h : m ≤ n) : (ofNat m).length ≤ (ofNat n).length :=
  length_ofNat_le (Nat.lt_of_le_of_lt h (lt_pow_length_ofNat n))

/-- Numerals of one length that stand for one number are the same. -/
theorem eq_of_toNatBE_eq {bytes other : Bytes} (hlength : bytes.length = other.length)
    (h : toNatBE bytes = toNatBE other) : bytes = other := by
  induction bytes using List.reverseRecOn generalizing other with
  | nil => exact (List.length_eq_zero_iff.1 hlength.symm).symm
  | append_singleton bytes b ih =>
    obtain rfl | ⟨before, c, rfl⟩ := List.eq_nil_or_concat other
    · simp at hlength
    · rw [List.concat_eq_append] at hlength h ⊢
      rw [List.length_append, List.length_append] at hlength
      rw [toNatBE_append_singleton, toNatBE_append_singleton] at h
      have hb := b.toNat_lt
      have hc := c.toNat_lt
      have hbefore : bytes = before := ih (by simpa using hlength) (by omega)
      have hlast : b = c := UInt8.toNat_inj.1 (by omega)
      rw [hbefore, hlast]

theorem ofNat_ne_nil {n : Nat} (h : n ≠ 0) : ofNat n ≠ [] := by
  rw [ofNat, if_neg h]
  exact List.ne_nil_of_length_pos (by rw [length_ofNatBE]; omega)

end JarSigners.Bytes
