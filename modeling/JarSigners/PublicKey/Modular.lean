/-!
# Arithmetic modulo a number
-/

set_option autoImplicit false

namespace JarSigners.PublicKey

/-- `base ^ exponent` modulo `modulus`, by squaring. -/
def powMod (modulus base : Nat) (exponent : Nat) : Nat :=
  if exponent = 0 then 1 % modulus
  else
    let root := powMod modulus base (exponent / 2)
    let square := root * root % modulus
    if exponent % 2 = 1 then square * base % modulus else square
termination_by exponent
decreasing_by omega

/-- The inverse modulo a prime. -/
def invMod (prime a : Nat) : Nat :=
  powMod prime (a % prime) (prime - 2)

/-- The difference modulo a number, of two numbers below it. -/
def subMod (modulus a b : Nat) : Nat :=
  (a + (modulus - b)) % modulus

theorem powMod_eq (modulus base exponent : Nat) :
    powMod modulus base exponent = Nat.pow base exponent % modulus := by
  change powMod modulus base exponent = base ^ exponent % modulus
  induction exponent using Nat.strongRecOn with
  | ind exponent ih =>
    rw [powMod]
    split
    next h => simp [h]
    next h =>
      have hlt : exponent / 2 < exponent := by omega
      rw [ih _ hlt]
      have hsquare : base ^ (exponent / 2) % modulus * (base ^ (exponent / 2) % modulus) % modulus =
          base ^ (exponent / 2 + exponent / 2) % modulus := by
        rw [Nat.pow_add, ← Nat.mul_mod]
      simp only [hsquare]
      split
      next hodd =>
        have he : exponent = exponent / 2 + exponent / 2 + 1 := by omega
        conv => rhs; rw [he, Nat.pow_succ]
        rw [Nat.mod_mul_mod]
      next heven =>
        have he : exponent = exponent / 2 + exponent / 2 := by omega
        conv => rhs; rw [he]

end JarSigners.PublicKey
