import Mathlib.Data.Fintype.Prod
import Mathlib.Tactic.FinCases
import OmniaJit.Lua.Number
import OmniaJit.Lua.StringFormat
import OmniaJit.Lua.StringSub

/-! # `uuid.new`

Sixteen random bytes, of which two get fixed bits, as hexadecimal digits in five groups. The bitwise
operations go through the bits of both numbers, and the digits through those of one.
-/

namespace OmniaJit.Uuid

open OmniaJit.Data OmniaJit.Lua

abbrev Matrix := List (List Number)

def MATRIX_AND : Matrix := [[0, 0], [0, 1]]
def MATRIX_OR : Matrix := [[0, 1], [1, 1]]
def HEXES : Text := "0123456789abcdef".toList

/-- `matrix[x%2+1][y%2+1]` -/
def entry (matrix : Matrix) (x y : Number) : Number := (matrix.getD (x.val % 2) []).getD (y.val % 2) 0

/-- The loop of `BITWISE`. -/
def bitwiseLoop (matrix : Matrix) (z pow x y : Number) : Number :=
  if x.val > 0 ∨ y.val > 0 then
    bitwiseLoop matrix (z + entry matrix x y * pow) (pow * 2) (x.floorDiv 1) (y.floorDiv 1)
  else z
termination_by x.val + y.val
decreasing_by
  simp only [Number.floorDiv_val]
  omega

def BITWISE (x y : Number) (matrix : Matrix) : Number := bitwiseLoop matrix 0 1 x y

/-- The first loop of `INT2HEX`. -/
def hexLoop (s : Text) (x : Number) : Text :=
  if x.val > 0 then
    let d : ℤ := x.val % 16 + 1
    hexLoop (sub HEXES d d ++ s) (x.floorDiv 4)
  else s
termination_by x.val
decreasing_by
  simp only [Number.floorDiv_val]
  omega

/-- The second one. -/
def padLoop (s : Text) : Text := if s.length < 2 then padLoop ('0' :: s) else s
termination_by 2 - s.length

def INT2HEX (x : Number) : Text := padLoop (hexLoop [] x)

/-- The version and the variant in the bytes 7 and 9. -/
def setVersion (bytes : Fin 16 → Number) : Fin 16 → Number :=
  let bytes := Function.update bytes 6 (BITWISE (bytes 6) 0x0f MATRIX_AND)
  let bytes := Function.update bytes 6 (BITWISE (bytes 6) 0x40 MATRIX_OR)
  let bytes := Function.update bytes 8 (BITWISE (bytes 8) 0x3f MATRIX_AND)
  Function.update bytes 8 (BITWISE (bytes 8) 0x80 MATRIX_OR)

/-- `M.new()`, for the results of the sixteen calls of `math_random(0, 255)`. -/
def new (random : Fin 16 → UInt8) : Text :=
  let bytes := setVersion fun i => .ofByte (random i)
  INT2HEX (bytes 0) ++ INT2HEX (bytes 1) ++ INT2HEX (bytes 2) ++ INT2HEX (bytes 3) ++ ['-'] ++
  INT2HEX (bytes 4) ++ INT2HEX (bytes 5) ++ ['-'] ++
  INT2HEX (bytes 6) ++ INT2HEX (bytes 7) ++ ['-'] ++
  INT2HEX (bytes 8) ++ INT2HEX (bytes 9) ++ ['-'] ++
  INT2HEX (bytes 10) ++ INT2HEX (bytes 11) ++ INT2HEX (bytes 12) ++ INT2HEX (bytes 13) ++ INT2HEX (bytes 14) ++
    INT2HEX (bytes 15)

section Bits

/-- An operation on numbers that goes bit by bit, as the matrix says. -/
structure IsBitwise (matrix : Matrix) (op : ℕ → ℕ → ℕ) : Prop where
  zero : op 0 0 = 0
  bit (x y : Number) : (entry matrix x y).val ≤ 1
  step (x y : Number) : op x.val y.val = (entry matrix x y).val + 2 * op (x.val / 2) (y.val / 2)

variable {matrix : Matrix} {op : ℕ → ℕ → ℕ}

/-- The loop, after `k` bits: `z` has the bits below. -/
theorem bitwiseLoop_val (bitwise : IsBitwise matrix op) (k : ℕ) {z pow x y : Number} (power : pow.val = 2 ^ k)
    (below : z.val < 2 ^ k) (fits : Fits 53 (z.val + 2 ^ k * op x.val y.val)) :
    (bitwiseLoop matrix z pow x y).val = z.val + 2 ^ k * op x.val y.val := by
  induction z, pow, x, y using bitwiseLoop.induct matrix generalizing k with
  | case1 z pow x y more ih =>
    have bit := bitwise.bit x y
    have split : z.val + 2 ^ k * op x.val y.val =
        z.val + (entry matrix x y).val * 2 ^ k + 2 ^ (k + 1) * op (x.val / 2) (y.val / 2) := by
      rw [bitwise.step]
      ring
    have next : z.val + (entry matrix x y).val * 2 ^ k < 2 ^ (k + 1) := by
      have set : (entry matrix x y).val * 2 ^ k ≤ 1 * 2 ^ k := Nat.mul_le_mul_right _ bit
      rw [pow_succ]
      omega
    have product : (entry matrix x y * pow).val = (entry matrix x y).val * 2 ^ k := by
      rw [← power]
      exact Number.mul_val ⟨_, k, bit.trans_lt (by decide), by rw [power]⟩
    have sum : (z + entry matrix x y * pow).val = z.val + (entry matrix x y).val * 2 ^ k := by
      rw [Number.add_val, product]
      -- these are the low bits of the result
      rw [product, ← Nat.mod_eq_of_lt next, ← Nat.add_mul_mod_self_left _ _ (op (x.val / 2) (y.val / 2)), ← split]
      exact fits.mod (k + 1)
    have double : (pow * 2).val = 2 ^ (k + 1) := by
      have two : (2 : Number).val = 2 := Number.ofNat_val (fits_of_lt (by decide))
      rw [Number.mul_val, power, two, pow_succ]
      rw [power, two, ← pow_succ]
      exact fits_two_pow (by decide) _
    rw [bitwiseLoop, if_pos more, ih (k + 1) double (by rwa [sum]), sum, split]
    · rfl
    · rw [sum]
      exact split ▸ fits
  | case2 z pow x y done =>
    obtain ⟨noX, noY⟩ : x.val = 0 ∧ y.val = 0 := by omega
    rw [bitwiseLoop, if_neg done, noX, noY, bitwise.zero, Nat.mul_zero, Nat.add_zero]

theorem zero_val : (0 : Number).val = 0 := Number.ofNat_val fits_zero

theorem one_val : (1 : Number).val = 1 := Number.ofNat_val (fits_of_lt (by decide))

theorem BITWISE_val (bitwise : IsBitwise matrix op) {x y : Number} (fits : Fits 53 (op x.val y.val)) :
    (BITWISE x y matrix).val = op x.val y.val := by
  have looped := bitwiseLoop_val bitwise 0 one_val (z := 0) (x := x) (y := y) (by rw [zero_val]; decide)
    (by rwa [zero_val, Nat.zero_add, pow_zero, Nat.one_mul])
  rwa [zero_val, Nat.zero_add, pow_zero, Nat.one_mul] at looped

/-- The matrices hold the operations on single bits. -/
theorem entry_val (x y : Number) : (entry MATRIX_AND x y).val = x.val % 2 &&& y.val % 2 ∧
    (entry MATRIX_OR x y).val = x.val % 2 ||| y.val % 2 := by
  rcases Nat.mod_two_eq_zero_or_one x.val with x0 | x1 <;> rcases Nat.mod_two_eq_zero_or_one y.val with y0 | y1 <;>
    simp [entry, MATRIX_AND, MATRIX_OR, zero_val, one_val, *]

theorem isBitwise_and : IsBitwise MATRIX_AND (· &&& ·) where
  zero := rfl
  bit x y := by
    rw [(entry_val x y).1]
    exact Nat.and_le_left.trans (by omega)
  step x y := by
    have low : (x.val &&& y.val) % 2 = x.val % 2 &&& y.val % 2 := Nat.and_mod_two_pow (n := 1)
    rw [(entry_val x y).1, ← low, ← Nat.and_div_two]
    exact (Nat.mod_add_div _ 2).symm

theorem isBitwise_or : IsBitwise MATRIX_OR (· ||| ·) where
  zero := rfl
  bit x y := by
    rw [(entry_val x y).2]
    have small : x.val % 2 ||| y.val % 2 < 2 ^ 1 := Nat.or_lt_two_pow (by omega) (by omega)
    omega
  step x y := by
    have low : (x.val ||| y.val) % 2 = x.val % 2 ||| y.val % 2 := Nat.or_mod_two_pow (n := 1)
    rw [(entry_val x y).2, ← low, ← Nat.or_div_two]
    exact (Nat.mod_add_div _ 2).symm

/-- Some of the bits of a number are a number. -/
theorem BITWISE_and (x y : Number) : (BITWISE x y MATRIX_AND).val = x.val &&& y.val :=
  BITWISE_val isBitwise_and (x.fits.and y.val)

theorem BITWISE_or_iff (x y : Number) :
    (BITWISE x y MATRIX_OR).val = x.val ||| y.val ↔ Fits 53 (x.val ||| y.val) := by
  constructor
  · intro same
    rw [← same]
    exact (BITWISE x y MATRIX_OR).fits
  · exact BITWISE_val isBitwise_or

end Bits

section Digits

theorem sub_HEXES {d : ℕ} (small : d < 16) : sub HEXES (d + 1) (d + 1) = [Nat.digitChar d] := by
  have all : ∀ d < 16, HEXES[d]? = some (Nat.digitChar d) := by decide +kernel
  rw [sub_char, all d small]
  rfl

/-- The digits of a number go in front of those that are there. -/
theorem hexLoop_eq (s : Text) {x : Number} (positive : 0 < x.val) : hexLoop s x = Nat.toDigits 16 x.val ++ s := by
  induction s, x using hexLoop.induct with
  | case1 s x more d ih =>
    have digit : sub HEXES d d = [Nat.digitChar (x.val % 16)] := sub_HEXES (Nat.mod_lt _ (by decide))
    rw [hexLoop, if_pos more, Nat.toDigits_eq_if (by decide)]
    split_ifs with last
    · have none : (x.floorDiv 4).val = 0 := Nat.div_eq_of_lt last
      rw [hexLoop, if_neg (by omega), digit, Nat.mod_eq_of_lt last]
    · have quotient : 0 < (x.floorDiv 4).val := Nat.div_pos (by omega) (by decide)
      rw [ih quotient, digit, List.append_assoc]
      rfl
  | case2 s x done => exact absurd positive done

theorem padLoop_eq (s : Text) : padLoop s = s.leftpad 2 '0' := by
  induction s using padLoop.induct with
  | case1 s short ih =>
    have missing : 2 - s.length = 2 - (s.length + 1) + 1 := by omega
    rw [padLoop, if_pos short, ih, List.leftpad, List.leftpad, missing, List.replicate_succ', List.append_assoc]
    rfl
  | case2 s long =>
    have full : 2 - s.length = 0 := by omega
    rw [padLoop, if_neg long, List.leftpad, full]
    rfl

/-- The hexadecimal numeral with at least two digits. -/
theorem INT2HEX_eq (x : Number) : INT2HEX x = (Nat.toDigits 16 x.val).leftpad 2 '0' := by
  rw [INT2HEX, padLoop_eq]
  rcases Nat.eq_zero_or_pos x.val with zero | positive
  · rw [hexLoop, if_neg (by omega), zero]
    rfl
  · rw [hexLoop_eq [] positive, List.append_nil]

/-- The two digits of a byte. -/
def pair (v : ℕ) : Text := [Nat.digitChar (v / 16), Nat.digitChar (v % 16)]

theorem INT2HEX_byte {x : Number} (byte : x.val < 256) : INT2HEX x = pair x.val := by
  rw [INT2HEX_eq, Nat.toDigits_eq_if (by decide)]
  split_ifs with small
  · rw [pair, Nat.div_eq_of_lt small, Nat.mod_eq_of_lt small]
    rfl
  · rw [Nat.toDigits_of_lt_base (by omega)]
    rfl

theorem digitChar_inj {d d' : ℕ} (small : d < 16) (small' : d' < 16) (same : Nat.digitChar d = Nat.digitChar d') :
    d = d' := by
  have all : ∀ d < 16, ∀ d' < 16, Nat.digitChar d = Nat.digitChar d' → d = d' := by decide +kernel
  exact all d small d' small' same

theorem pair_inj {v v' : ℕ} (byte : v < 256) (byte' : v' < 256) (same : pair v = pair v') : v = v' := by
  simp only [pair, List.cons.injEq, and_true] at same
  have high := digitChar_inj (by omega) (by omega) same.1
  have low := digitChar_inj (by omega) (by omega) same.2
  omega

theorem mem_HEXES_of_pair {v : ℕ} (byte : v < 256) {c : Char} (member : c ∈ pair v) : c ∈ HEXES := by
  have all : ∀ d < 16, Nat.digitChar d ∈ HEXES := by decide +kernel
  simp only [pair, List.mem_cons, List.not_mem_nil, or_false] at member
  rcases member with rfl | rfl
  · exact all _ (by omega)
  · exact all _ (by omega)

end Digits

section Layout

/-- The bits that a byte keeps at its place. -/
def mask (i : Fin 16) : ℕ := if i = 6 then 0x0f else if i = 8 then 0x3f else 0xff

/-- The bits that are set there. -/
def setBits (i : Fin 16) : ℕ := if i = 6 then 0x40 else if i = 8 then 0x80 else 0

def stamp (i : Fin 16) (b : UInt8) : ℕ := (b.toNat &&& mask i) ||| setBits i

theorem masked_byte (b : UInt8) (mask : ℕ) {bits : ℕ} (fixed : bits < 256) : (b.toNat &&& mask) ||| bits < 256 :=
  Nat.or_lt_two_pow (n := 8) (Nat.and_le_left.trans_lt b.toNat_lt) fixed

theorem stamp_byte (i : Fin 16) (b : UInt8) : stamp i b < 256 := by
  have small : ∀ i, setBits i < 256 := by decide
  exact masked_byte b (mask i) (small i)

/-- The two calls for one byte. -/
theorem BITWISE_mask (b : UInt8) {mask bits : ℕ} (small : mask < 256) (fixed : bits < 256) :
    (BITWISE (BITWISE (.ofByte b) (OfNat.ofNat mask) MATRIX_AND) (OfNat.ofNat bits) MATRIX_OR).val =
      (b.toNat &&& mask) ||| bits := by
  have number {n : ℕ} (byte : n < 256) : Fits 53 n := fits_of_lt (byte.trans (by decide))
  have masked : (BITWISE (.ofByte b) (OfNat.ofNat mask) MATRIX_AND).val = b.toNat &&& mask := by
    rw [BITWISE_and, Number.ofNat_val (number small)]
    rfl
  rw [(BITWISE_or_iff _ _).mpr, masked, Number.ofNat_val (number fixed)]
  rw [masked, Number.ofNat_val (number fixed)]
  exact number (masked_byte b mask fixed)

theorem setVersion_val (random : Fin 16 → UInt8) (i : Fin 16) :
    (setVersion (fun i => .ofByte (random i)) i).val = stamp i (random i) := by
  rw [setVersion, stamp, mask, setBits]
  split_ifs with version variant
  · subst version
    exact BITWISE_mask (random 6) (by decide) (by decide)
  · subst variant
    exact BITWISE_mask (random 8) (by decide) (by decide)
  · have whole : (random i).toNat &&& 0xff = (random i).toNat := by
      rw [Nat.and_two_pow_sub_one_eq_mod _ 8, Nat.mod_eq_of_lt (random i).toNat_lt]
    rw [whole, Nat.or_zero, Function.update_of_ne variant, Function.update_of_ne variant,
      Function.update_of_ne version, Function.update_of_ne version]
    rfl

/-- The five groups. -/
def groups (v : Fin 16 → ℕ) : List Text :=
  [pair (v 0) ++ pair (v 1) ++ pair (v 2) ++ pair (v 3), pair (v 4) ++ pair (v 5), pair (v 6) ++ pair (v 7),
    pair (v 8) ++ pair (v 9), pair (v 10) ++ pair (v 11) ++ pair (v 12) ++ pair (v 13) ++ pair (v 14) ++ pair (v 15)]

theorem digits_eq (random : Fin 16 → UInt8) (i : Fin 16) :
    INT2HEX (setVersion (fun i => .ofByte (random i)) i) = pair (stamp i (random i)) := by
  have value := setVersion_val random i
  rw [INT2HEX_byte, value]
  rw [value]
  exact stamp_byte i (random i)

theorem new_eq (random : Fin 16 → UInt8) :
    new random = List.intercalate ['-'] (groups fun i => stamp i (random i)) := by
  unfold new
  simp only [digits_eq, groups, List.intercalate_cons_cons, List.intercalate_singleton, List.append_assoc]

/-- The bits with a fixed value: the upper four of the seventh byte, and the upper two of the ninth. -/
def Fixed (i : Fin 16) (j : Fin 8) : Prop := (i = 6 ∧ 4 ≤ j.val) ∨ (i = 8 ∧ 6 ≤ j.val)

instance (i : Fin 16) (j : Fin 8) : Decidable (Fixed i j) := inferInstanceAs (Decidable (_ ∨ _))

example : (Finset.univ.filter fun bit : Fin 16 × Fin 8 => ¬ Fixed bit.1 bit.2).card = 122 := by decide +kernel

theorem stamp_testBit (i : Fin 16) (b : UInt8) (j : Fin 8) :
    (stamp i b).testBit j = if Fixed i j then (setBits i).testBit j else b.toNat.testBit j := by
  have masks : ∀ i : Fin 16, ∀ j : Fin 8, (mask i).testBit j = !decide (Fixed i j) := by decide
  have set : ∀ i : Fin 16, ∀ j : Fin 8, ¬ Fixed i j → (setBits i).testBit j = false := by decide
  rw [stamp, Nat.testBit_or, Nat.testBit_and, masks]
  split_ifs with fixed
  · simp [fixed]
  · simp [fixed, set i j fixed]

theorem stamp_eq_iff (i : Fin 16) (b b' : UInt8) :
    stamp i b = stamp i b' ↔ ∀ j : Fin 8, ¬ Fixed i j → b.toNat.testBit j = b'.toNat.testBit j := by
  constructor
  · intro same j free
    have bit := congrArg (Nat.testBit · j) same
    simpa only [stamp_testBit, if_neg free] using bit
  · intro agree
    apply Nat.eq_of_testBit_eq
    intro j
    rcases Nat.lt_or_ge j 8 with low | high
    · have bits := stamp_testBit i b ⟨j, low⟩
      rw [bits, stamp_testBit i b' ⟨j, low⟩]
      split_ifs with fixed
      · rfl
      · exact agree ⟨j, low⟩ fixed
    · have none (b : UInt8) : (stamp i b).testBit j = false :=
        Nat.testBit_lt_two_pow ((stamp_byte i b).trans_le (Nat.pow_le_pow_right Nat.two_pos high))
      rw [none, none]

/-- The upper digit of the version byte. -/
theorem stamp_version (b : UInt8) : stamp 6 b / 16 = 4 := by
  have low : (b.toNat &&& 0x0f) / 16 = 0 := Nat.div_eq_of_lt (Nat.and_le_right.trans_lt (by decide))
  change ((b.toNat &&& 0x0f) ||| 0x40) / 2 ^ 4 = 4
  rw [Nat.or_div_two_pow, low]
  rfl

theorem stamp_variant (b : UInt8) : ∃ k < 4, stamp 8 b / 16 = 8 + k := by
  have small : (b.toNat &&& 0x3f) / 16 < 4 := Nat.div_lt_of_lt_mul (Nat.and_le_right.trans_lt (by decide))
  have set : ∀ k < 4, k ||| 8 = 8 + k := by decide
  refine ⟨(b.toNat &&& 0x3f) / 16, small, ?_⟩
  change ((b.toNat &&& 0x3f) ||| 0x80) / 2 ^ 4 = _
  rw [Nat.or_div_two_pow]
  exact set _ small

/-- The place of a byte in the identifier. -/
def place (i : Fin 16) : ℕ := [0, 2, 4, 6, 9, 11, 14, 16, 19, 21, 24, 26, 28, 30, 32, 34].get i

theorem digits_at (v : Fin 16 → ℕ) (i : Fin 16) :
    ((List.intercalate ['-'] (groups v)).drop (place i)).take 2 = pair (v i) := by
  fin_cases i <;> rfl

theorem groups_inj {v v' : Fin 16 → ℕ} (byte : ∀ i, v i < 256) (byte' : ∀ i, v' i < 256)
    (same : List.intercalate ['-'] (groups v) = List.intercalate ['-'] (groups v')) : v = v' := by
  funext i
  have pairs : pair (v i) = pair (v' i) := by rw [← digits_at, same, digits_at]
  exact pair_inj (byte i) (byte' i) pairs

/-- A version 4 identifier: groups of digits with dashes between them, of which two digits are fixed. -/
structure IsUuid (s : Text) : Prop where
  length : s.length = 36
  groups : ∃ parts : List Text, s = List.intercalate ['-'] parts ∧ parts.map List.length = [8, 4, 4, 4, 12] ∧
    ∀ part ∈ parts, ∀ c ∈ part, c ∈ HEXES
  version : s[14]? = some '4'
  variant : ∃ c ∈ "89ab".toList, s[19]? = some c

theorem isUuid_new (random : Fin 16 → UInt8) : IsUuid (new random) := by
  rw [new_eq]
  constructor
  · simp [groups, pair, List.intercalate_cons_cons]
  · refine ⟨_, rfl, by simp [groups, pair], ?_⟩
    have digits (i : Fin 16) : ∀ c ∈ pair (stamp i (random i)), c ∈ HEXES :=
      fun c member => mem_HEXES_of_pair (stamp_byte i (random i)) member
    simp only [groups, List.forall_mem_cons, List.forall_mem_append, List.not_mem_nil, false_implies, implies_true,
      and_true]
    and_intros
    all_goals exact digits _
  · have digit : Nat.digitChar 4 = '4' := rfl
    simp [groups, pair, List.intercalate_cons_cons, stamp_version, digit]
  · obtain ⟨k, small, upper⟩ := stamp_variant (random 8)
    have digits : ∀ k < 4, Nat.digitChar (8 + k) ∈ "89ab".toList := by decide
    exact ⟨_, digits k small, by simp [groups, pair, List.intercalate_cons_cons, upper]⟩

/-- The identifiers have the right form, and all bits are in them but the fixed ones. -/
theorem new_wellFormed :
    (∀ x y : Number, (BITWISE x y MATRIX_AND).val = x.val &&& y.val) ∧
    (∀ x y : Number, (BITWISE x y MATRIX_OR).val = x.val ||| y.val ↔ Fits 53 (x.val ||| y.val)) ∧
    (∀ x : Number, INT2HEX x = (Nat.toDigits 16 x.val).leftpad 2 '0') ∧
    (∀ random, IsUuid (new random)) ∧
    ∀ random random', new random = new random' ↔
      ∀ i j, ¬ Fixed i j → (random i).toNat.testBit j = (random' i).toNat.testBit j := by
  refine ⟨BITWISE_and, BITWISE_or_iff, INT2HEX_eq, isUuid_new, ?_⟩
  intro random random'
  simp only [← stamp_eq_iff]
  constructor
  · intro same i
    rw [new_eq, new_eq] at same
    exact congrFun (groups_inj (fun i => stamp_byte i _) (fun i => stamp_byte i _) same) i
  · intro same
    rw [new_eq, new_eq, funext same]

/-- The 54 bits of `2^53 + 1` are rounded. -/
theorem BITWISE_large : (BITWISE 0x20000000000000 1 MATRIX_OR).val ≠ 0x20000000000000 ||| 1 := by
  have large : (0x20000000000000 : Number).val = 2 ^ 53 := Number.ofNat_val (fits_two_pow (by decide) 53)
  have sum := BITWISE_or_iff 0x20000000000000 1
  rw [large, one_val] at sum
  exact mt sum.mp (not_fits_of_odd (by decide) (by decide))

end Layout

end OmniaJit.Uuid
