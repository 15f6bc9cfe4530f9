import OmniaJit.Data.Rounding

/-! # Natural numbers in Lua

A Lua number is a double, whose significand has 53 bits. Sums and products are rounded; a number is
halved, and its last bits are taken, without rounding. The exponent has no upper bound here.
-/

namespace OmniaJit.Lua

open OmniaJit.Data

/-- The natural numbers that a double can hold. -/
@[ext] structure Number where
  val : ℕ
  fits : Fits 53 val

namespace Number

instance : Add Number := ⟨fun a b => ⟨rounded 53 (a.val + b.val), fits_double _⟩⟩

instance : Mul Number := ⟨fun a b => ⟨rounded 53 (a.val * b.val), fits_double _⟩⟩

instance (n : ℕ) : OfNat Number n := ⟨⟨rounded 53 n, fits_double n⟩⟩

/-- `math.floor(a/2^k)` -/
def floorDiv (a : Number) (k : ℕ) : Number := ⟨a.val / 2 ^ k, a.fits.div k⟩

/-- A byte. -/
def ofByte (b : UInt8) : Number := ⟨b.toNat, fits_of_lt (b.toNat_lt.trans (by decide))⟩

theorem add_val {a b : Number} (fits : Fits 53 (a.val + b.val)) : (a + b).val = a.val + b.val := rounded_of_fits fits

theorem mul_val {a b : Number} (fits : Fits 53 (a.val * b.val)) : (a * b).val = a.val * b.val := rounded_of_fits fits

theorem ofNat_val {n : ℕ} (fits : Fits 53 n) : (OfNat.ofNat n : Number).val = n := rounded_of_fits fits

@[simp] theorem floorDiv_val (a : Number) (k : ℕ) : (a.floorDiv k).val = a.val / 2 ^ k := rfl

@[simp] theorem ofByte_val (b : UInt8) : (ofByte b).val = b.toNat := rfl

end Number

end OmniaJit.Lua
