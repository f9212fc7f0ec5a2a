/- digest: Integers as binary floating point numbers with 53 significant bits, rounded to the
   nearest one with ties to even; rounding is monotone. -/
import Mathlib.Data.Nat.Log
import Mathlib.Data.Rat.Cast.Order
import Mathlib.Tactic.Linarith

set_option autoImplicit false
set_option relaxedAutoImplicit false

namespace SeSqlite.Lib.Rounding

/-- The exponent that leaves 53 bits of a number. -/
def exponent (n : Nat) : Nat := Nat.log 2 n - 52

/-- Whether the bits below the exponent round up. -/
def RoundsUp (e n : Nat) : Prop :=
  2 ^ e < 2 * (n % 2 ^ e) ∨ 2 * (n % 2 ^ e) = 2 ^ e ∧ n / 2 ^ e % 2 = 1

instance (e n : Nat) : Decidable (RoundsUp e n) := inferInstanceAs (Decidable (_ ∨ _))

def significand (e n : Nat) : Nat := if RoundsUp e n then n / 2 ^ e + 1 else n / 2 ^ e

def roundNat (n : Nat) : Nat := significand (exponent n) n * 2 ^ exponent n

def roundInt (i : Int) : Int := if i < 0 then -roundNat i.natAbs else roundNat i.natAbs

theorem significand_mono (e : Nat) {n m : Nat} (le : n ≤ m) :
    significand e n ≤ significand e m := by
  have quotients : n / 2 ^ e ≤ m / 2 ^ e := Nat.div_le_div_right le
  rcases Nat.lt_or_eq_of_le quotients with less | same
  · unfold significand
    split_ifs <;> omega
  · have remainders : n % 2 ^ e ≤ m % 2 ^ e := by
      have first := Nat.div_add_mod n (2 ^ e)
      have second := Nat.div_add_mod m (2 ^ e)
      rw [same] at first
      omega
    have up : RoundsUp e n → RoundsUp e m := by
      rw [RoundsUp, RoundsUp]
      omega
    unfold significand
    split_ifs with upN upM <;> first | omega | exact absurd (up upN) upM

theorem roundNat_le (n : Nat) : roundNat n ≤ 2 ^ (Nat.log 2 n + 1) := by
  have below : n < 2 ^ (Nat.log 2 n + 1) := Nat.lt_pow_succ_log_self (by decide) n
  rw [roundNat, exponent]
  rcases Nat.lt_or_ge (Nat.log 2 n) 52 with small | large
  · rw [show Nat.log 2 n - 52 = 0 by omega]
    simp only [significand, pow_zero]
    split_ifs <;> omega
  · have split : 2 ^ (Nat.log 2 n + 1) = 2 ^ 53 * 2 ^ (Nat.log 2 n - 52) := by
      rw [← pow_add]
      congr 1
      omega
    have bits : n / 2 ^ (Nat.log 2 n - 52) < 2 ^ 53 := by
      rw [Nat.div_lt_iff_lt_mul (by positivity), ← split]
      exact below
    rw [split]
    refine Nat.mul_le_mul_right _ ?_
    unfold significand
    split_ifs <;> omega

theorem le_roundNat {n : Nat} (large : 52 ≤ Nat.log 2 n) : 2 ^ Nat.log 2 n ≤ roundNat n := by
  have split : 2 ^ Nat.log 2 n = 2 ^ 52 * 2 ^ (Nat.log 2 n - 52) := by
    rw [← pow_add]
    congr 1
    omega
  have some_bit : n ≠ 0 := by
    rintro rfl
    simp at large
  have bits : 2 ^ 52 ≤ n / 2 ^ (Nat.log 2 n - 52) := by
    rw [Nat.le_div_iff_mul_le (by positivity), ← split]
    exact Nat.pow_log_le_self 2 some_bit
  rw [roundNat, exponent, split]
  refine Nat.mul_le_mul_right _ ?_
  unfold significand
  split_ifs <;> omega

theorem roundNat_mono {n m : Nat} (le : n ≤ m) : roundNat n ≤ roundNat m := by
  have logs : Nat.log 2 n ≤ Nat.log 2 m := Nat.log_mono_right le
  by_cases same : exponent n = exponent m
  · rw [roundNat, same]
    exact Nat.mul_le_mul_right _ (significand_mono _ le)
  · rw [exponent, exponent] at same
    calc roundNat n ≤ 2 ^ (Nat.log 2 n + 1) := roundNat_le n
      _ ≤ 2 ^ Nat.log 2 m := Nat.pow_le_pow_right (by decide) (by omega)
      _ ≤ roundNat m := le_roundNat (by omega)

theorem roundInt_mono {i j : Int} (le : i ≤ j) : roundInt i ≤ roundInt j := by
  unfold roundInt
  split_ifs with negative negative'
  · have := roundNat_mono (show j.natAbs ≤ i.natAbs by omega)
    omega
  · omega
  · omega
  · have := roundNat_mono (show i.natAbs ≤ j.natAbs by omega)
    omega

end SeSqlite.Lib.Rounding
