import Mathlib.Data.Fin.VecNotation
import OmniaJit.Data.Generator
import OmniaJit.Lua.Double

/-! # The generator of `math.random`

Four shift registers, whose exclusive or is the next number. `math.randomseed` fills them with the bits
of four doubles that it computes from the seed.
-/

namespace OmniaJit.Random

open OmniaJit.Data OmniaJit.Lua

/-- `rs->u` -/
abbrev PRNGState := Fin 4 → BitVec 64

def TW223_GEN (z : BitVec 64) (k q s : ℕ) : BitVec 64 :=
  (((z <<< q) ^^^ z) >>> (k - s)) ^^^ ((z &&& (-1 <<< (64 - k))) <<< s)

def TW223_STEP (rs : PRNGState) : PRNGState :=
  ![TW223_GEN (rs 0) 63 31 18, TW223_GEN (rs 1) 58 19 28, TW223_GEN (rs 2) 55 24 7, TW223_GEN (rs 3) 47 21 8]

def lj_prng_u64 (rs : PRNGState) : BitVec 64 × PRNGState :=
  let rs := TW223_STEP rs
  (rs 0 ^^^ rs 1 ^^^ rs 2 ^^^ rs 3, rs)

/-- The bits of a double from 1 to 2. -/
def lj_prng_u64d (rs : PRNGState) : BitVec 64 × PRNGState :=
  let (r, rs) := lj_prng_u64 rs
  ((r &&& 0x000fffffffffffff) ||| 0x3ff0000000000000, rs)

def lj_prng_seed_fixed : PRNGState :=
  ![0xa0d277570a345b8c, 0x764a296c5d4aa64f, 0x51220704070adeaa, 0x2a2717b5a7b7b927]

/-- 3.14159265358979323846 -/
def pi : Double := .nearest 0x1921fb54442d18 (-51)

/-- 2.7182818284590452354 -/
def e : Double := .nearest 0x15bf0a8b145769 (-51)

/-- The registers that are still to be filled. The bytes of `r` say which bits must not all be zero. -/
def seedLoop (r : BitVec 32) (d : Double) : ℕ → List (BitVec 64)
  | 0 => []
  | i + 1 =>
    let m := 1 <<< (r &&& 255).toNat
    let d := d * pi + e
    let u := d.bits
    (if u < m then u + m else u) :: seedLoop (r >>> 8) d i

def random_seed (d : Double) : PRNGState :=
  let u := seedLoop 0x11090601 d 4
  TW223_STEP^[10] fun i => u.getD i 0

-- the fixed state is that of the seed 0
example : ∀ i, random_seed (.nearest 0 0) i = lj_prng_seed_fixed i := by decide +kernel

/-- `u.d - 1.0` in the last places of `u.d` -/
def fraction (u : BitVec 64) : ℕ := u.toNat % 2 ^ 52

theorem fraction_lt (u : BitVec 64) : fraction u < 2 ^ 52 := Nat.mod_lt _ (Nat.two_pow_pos 52)

/-- The bits are those of 1 and the fraction. -/
theorem lj_prng_u64d_bits (rs : PRNGState) :
    (lj_prng_u64d rs).1 = (Double.nearest (2 ^ 52 + fraction (lj_prng_u64d rs).1) (-52)).bits := by
  generalize value : (lj_prng_u64d rs).1 = u
  have masked : u.toNat = 2 ^ 52 * 0x3ff + (lj_prng_u64 rs).1.toNat % 2 ^ 52 := by
    have small : (lj_prng_u64 rs).1.toNat % 2 ^ 52 < 2 ^ 52 := Nat.mod_lt _ (Nat.two_pow_pos 52)
    rw [← value, Nat.two_pow_add_eq_or_of_lt small, ← Nat.and_two_pow_sub_one_eq_mod, Nat.or_comm]
    exact (BitVec.toNat_or ..).trans (congrArg (· ||| 2 ^ 52 * 0x3ff) (BitVec.toNat_and ..))
  have parts := Nat.div_add_mod u.toNat (2 ^ 52)
  have exponent : u.toNat / 2 ^ 52 = 0x3ff := by omega
  rw [Double.bits_one_add (fraction_lt u), fraction, Nat.mul_comm, ← exponent, parts, BitVec.ofNat_toNat,
    BitVec.setWidth_eq]

/-- `math.random(1, n)`, counted from 0. -/
def math_random (n : ℕ) (rs : PRNGState) : ℕ × PRNGState :=
  let (u, rs) := lj_prng_u64d rs
  let d := Double.nearest (fraction u) (-52)
  ((d * .nearest n 0).floor, rs)

theorem math_random_lt {n : ℕ} (positive : 0 < n) (fits : Fits 53 n) (rs : PRNGState) : (math_random n rs).1 < n :=
  Double.floor_fraction_mul_lt (fraction_lt (lj_prng_u64d rs).1) positive fits

def luajit (n : ℕ) (positive : 0 < n) (fits : Fits 53 n) : Generator n where
  State := PRNGState
  randomseed seed := random_seed (.nearest seed 0)
  random rs := (⟨(math_random n rs).1, math_random_lt positive fits rs⟩, (math_random n rs).2)

/-- Seeds for each of 62 numbers. -/
def firstSeeds : List ℕ :=
  [73, 68, 93, 79, 70, 81, 80, 24, 88, 190, 63, 5, 28, 39, 22, 77, 7, 30, 87, 169, 1, 52, 19, 36, 67, 31, 111, 243, 34,
    82, 2, 3, 44, 51, 12, 148, 110, 6, 188, 95, 21, 10, 263, 47, 23, 76, 62, 78, 43, 0, 155, 98, 17, 14, 11, 46, 55, 71,
    99, 42, 135, 66]

theorem math_random_firstSeeds :
    firstSeeds.map (fun seed => (math_random 62 (random_seed (.nearest seed 0))).1) = List.range 62 := by
  decide +kernel

/-- Each of 62 numbers is the first one for some seed. -/
theorem luajit_first {positive : 0 < 62} {fits : Fits 53 62} (k : Fin 62) : ∃ seed < 2 ^ 32,
    ((luajit 62 positive fits).random ((luajit 62 positive fits).randomseed seed)).1 = k := by
  have small : ∀ seed ∈ firstSeeds, seed < 2 ^ 32 := by decide
  have listed : k.val ∈ List.range 62 := List.mem_range.mpr k.isLt
  rw [← math_random_firstSeeds] at listed
  obtain ⟨seed, member, drawn⟩ := List.mem_map.mp listed
  exact ⟨seed, small seed member, Fin.ext drawn⟩

end OmniaJit.Random
