import Mathlib.Algebra.Order.Ring.Nat
import Mathlib.Tactic.Ring

/-! # Natural numbers of a binary format

A natural number fits a format with significands of `p` bits if it is such a significand times a power
of two. Sums and products are rounded to the nearest number that fits, and to the even one of two.
-/

namespace OmniaJit.Data

/-- A significand of `p` bits and an exponent give `n`. -/
def Fits (p n : ℕ) : Prop := ∃ m e, m < 2 ^ p ∧ n = m * 2 ^ e

/-- How many of the last bits have no room. -/
def excess (p n : ℕ) : ℕ := n.log2 + 1 - p

/-- The nearest number that fits. The last bits are dropped, or carried. -/
def rounded (p n : ℕ) : ℕ :=
  let e := excess p n
  let r := n % 2 ^ e
  (if 2 * r < 2 ^ e ∨ (2 * r = 2 ^ e ∧ n / 2 ^ e % 2 = 0) then n / 2 ^ e else n / 2 ^ e + 1) * 2 ^ e

variable {p n : ℕ}

theorem fits_of_lt (small : n < 2 ^ p) : Fits p n := ⟨n, 0, small, by rw [pow_zero, Nat.mul_one]⟩

theorem fits_zero : Fits p 0 := fits_of_lt (Nat.two_pow_pos p)

theorem fits_two_pow (positive : 0 < p) (k : ℕ) : Fits p (2 ^ k) :=
  ⟨1, k, Nat.one_lt_two_pow positive.ne', (Nat.one_mul _).symm⟩

/-- The low bits of a number that fits. -/
theorem Fits.mod (fits : Fits p n) (k : ℕ) : Fits p (n % 2 ^ k) := by
  obtain ⟨m, e, small, rfl⟩ := fits
  rcases le_total k e with below | above
  · rw [Nat.mod_eq_zero_of_dvd ((pow_dvd_pow 2 below).mul_left m)]
    exact fits_zero
  · obtain ⟨j, rfl⟩ := Nat.exists_eq_add_of_le above
    refine ⟨m % 2 ^ j, e, (Nat.mod_le ..).trans_lt small, ?_⟩
    rw [Nat.add_comm, pow_add, Nat.mul_mod_mul_right]

/-- The high bits. -/
theorem Fits.div (fits : Fits p n) (k : ℕ) : Fits p (n / 2 ^ k) := by
  obtain ⟨m, e, small, rfl⟩ := fits
  rcases le_total k e with below | above
  · obtain ⟨j, rfl⟩ := Nat.exists_eq_add_of_le below
    refine ⟨m, j, small, ?_⟩
    rw [pow_add, Nat.mul_comm (2 ^ k), ← Nat.mul_assoc, Nat.mul_div_cancel _ (Nat.two_pow_pos k)]
  · obtain ⟨j, rfl⟩ := Nat.exists_eq_add_of_le above
    rw [pow_add, ← Nat.div_div_eq_div_mul, Nat.mul_div_cancel _ (Nat.two_pow_pos e)]
    exact fits_of_lt ((Nat.div_le_self ..).trans_lt small)

/-- Some of the bits. -/
theorem Fits.and (fits : Fits p n) (k : ℕ) : Fits p (n &&& k) := by
  obtain ⟨m, e, small, rfl⟩ := fits
  refine ⟨m &&& k / 2 ^ e, e, Nat.and_le_left.trans_lt small, ?_⟩
  apply Nat.eq_of_testBit_eq
  intro i
  rw [Nat.testBit_and, Nat.testBit_mul_two_pow, Nat.testBit_mul_two_pow, Nat.testBit_and, Nat.testBit_div_two_pow]
  rcases Nat.lt_or_ge i e with below | above
  · simp [Nat.not_le.mpr below]
  · simp [above]

/-- No bit of an odd number can be left out. -/
theorem not_fits_of_odd (odd : n % 2 = 1) (large : 2 ^ p ≤ n) : ¬ Fits p n := by
  rintro ⟨m, e, small, rfl⟩
  cases e with
  | zero => omega
  | succ e =>
    rw [pow_succ, ← Nat.mul_assoc, Nat.mul_mod_left] at odd
    exact absurd odd (by decide)

/-- The other bits have room. -/
theorem div_lt_of_excess (p n : ℕ) : n / 2 ^ excess p n < 2 ^ p := by
  rw [Nat.div_lt_iff_lt_mul (Nat.two_pow_pos _), ← pow_add]
  exact Nat.lt_log2_self.trans_le (Nat.pow_le_pow_right Nat.two_pos (by rw [excess]; omega))

theorem rounded_of_fits (fits : Fits p n) : rounded p n = n := by
  have divides : 2 ^ excess p n ∣ n := by
    rcases Nat.eq_zero_or_pos n with rfl | positive
    · exact dvd_zero _
    · obtain ⟨m, e, small, rfl⟩ := fits
      have size : (m * 2 ^ e).log2 < p + e := by
        rw [Nat.log2_lt positive.ne', pow_add]
        exact Nat.mul_lt_mul_of_pos_right small (Nat.two_pow_pos e)
      exact (pow_dvd_pow 2 (by rw [excess]; omega)).mul_left m
  rw [rounded]
  simp only [Nat.mod_eq_zero_of_dvd divides, Nat.mul_zero, Nat.two_pow_pos, true_or, if_true]
  exact Nat.div_mul_cancel divides

theorem fits_rounded (positive : 0 < p) (n : ℕ) : Fits p (rounded p n) := by
  have small := div_lt_of_excess p n
  rw [rounded]
  split_ifs
  · exact ⟨_, _, small, rfl⟩
  · rcases Nat.lt_or_ge (n / 2 ^ excess p n + 1) (2 ^ p) with below | carried
    · exact ⟨_, _, below, rfl⟩
    · rw [le_antisymm small carried, ← pow_add]
      exact fits_two_pow positive _

/-- The significands of doubles have 53 bits. -/
theorem fits_double (n : ℕ) : Fits 53 (rounded 53 n) := fits_rounded (by decide) n

/-- Rounding up adds no more than a half of the last place. -/
theorem two_mul_rounded_le (p n : ℕ) : 2 * rounded p n ≤ 2 * n + 2 ^ excess p n := by
  have parts := Nat.div_add_mod' n (2 ^ excess p n)
  rw [rounded]
  split_ifs with down
  · omega
  · rw [Nat.add_mul, Nat.one_mul]
    omega

end OmniaJit.Data
