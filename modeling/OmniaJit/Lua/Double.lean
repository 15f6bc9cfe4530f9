import OmniaJit.Data.Rounding

/-! # Doubles

The doubles that are not negative, without bounds for the exponent. Products and sums are rounded.
-/

namespace OmniaJit.Lua

open OmniaJit.Data

/-- `significand * 2 ^ exponent` -/
structure Double where
  significand : ℕ
  exponent : ℤ
  fits : Fits 53 significand

namespace Double

/-- The double next to `significand * 2 ^ exponent`. -/
def nearest (significand : ℕ) (exponent : ℤ) : Double := ⟨rounded 53 significand, exponent, fits_double significand⟩

instance : Mul Double := ⟨fun a b => nearest (a.significand * b.significand) (a.exponent + b.exponent)⟩

instance : Add Double := ⟨fun a b =>
  let last := min a.exponent b.exponent
  nearest (a.significand * 2 ^ (a.exponent - last).toNat + b.significand * 2 ^ (b.exponent - last).toNat) last⟩

/-- The bits of a normal number: the exponent, and the significand without its first bit. -/
def bits (d : Double) : BitVec 64 :=
  let size := d.significand.log2 + 1
  BitVec.ofNat 64 ((d.exponent + size + 1022).toNat * 2 ^ 52 + (d.significand * 2 ^ 53 / 2 ^ size - 2 ^ 52))

def floor (d : Double) : ℕ := d.significand * 2 ^ d.exponent.toNat / 2 ^ (-d.exponent).toNat

theorem nearest_significand {m : ℕ} (fits : Fits 53 m) (e : ℤ) : (nearest m e).significand = m := rounded_of_fits fits

/-- The doubles from 1 to 2. -/
theorem bits_one_add {m : ℕ} (small : m < 2 ^ 52) :
    (nearest (2 ^ 52 + m) (-52)).bits = BitVec.ofNat 64 (0x3ff * 2 ^ 52 + m) := by
  have significand : (nearest (2 ^ 52 + m) (-52)).significand = 2 ^ 52 + m :=
    nearest_significand (fits_of_lt (by omega)) _
  have size : (2 ^ 52 + m).log2 = 52 := (Nat.log2_eq_iff (by omega)).mpr ⟨by omega, by omega⟩
  have exponent : ((nearest (2 ^ 52 + m) (-52)).exponent + (52 + 1 : ℕ) + 1022).toNat = 0x3ff := rfl
  have cut : (2 ^ 52 + m) * 2 ^ 53 / 2 ^ (52 + 1) = 2 ^ 52 + m := Nat.mul_div_cancel _ (Nat.two_pow_pos 53)
  rw [bits]
  simp only [significand, size, exponent, cut, Nat.add_sub_cancel_left]

/-- A fraction below 1, times `n`, stays below `n` when it is rounded. -/
theorem floor_fraction_mul_lt {m n : ℕ} (small : m < 2 ^ 52) (positive : 0 < n) (fits : Fits 53 n) :
    (nearest m (-52) * nearest n 0).floor < n := by
  have product : (nearest m (-52) * nearest n 0).significand = rounded 53 (m * n) := by
    change rounded 53 ((nearest m (-52)).significand * (nearest n 0).significand) = _
    rw [nearest_significand (fits_of_lt (by omega)), nearest_significand fits]
  have last : 2 ^ excess 53 (m * n) ≤ n := by
    have size : excess 53 (m * n) ≤ n.log2 := by
      rcases Nat.eq_zero_or_pos (m * n) with zero | _
      · rw [excess, zero, Nat.log2_zero]
        omega
      · have below : m * n < 2 ^ (53 + n.log2) := by
          calc
            m * n < 2 ^ 52 * 2 ^ (n.log2 + 1) := Nat.mul_lt_mul'' small Nat.lt_log2_self
            _ = 2 ^ (53 + n.log2) := by ring
        have bits := (Nat.log2_lt (by omega)).mpr below
        rw [excess]
        omega
    exact (Nat.pow_le_pow_right Nat.two_pos size).trans (Nat.log2_self_le positive.ne')
  have above := two_mul_rounded_le 53 (m * n)
  change (nearest m (-52) * nearest n 0).significand * 2 ^ 0 / 2 ^ 52 < n
  rw [product, pow_zero, Nat.mul_one, Nat.div_lt_iff_lt_mul (by decide)]
  have room : (m + 1) * n ≤ 2 ^ 52 * n := Nat.mul_le_mul_right n small
  rw [Nat.add_mul] at room
  omega

end Double

end OmniaJit.Lua
