import Mathlib.Order.Lattice
import Mathlib.Data.List.Basic
import Mathlib.Data.Int.Basic

/-! # `string.sub`

Indices count from 1, and negative ones from the end. What is outside the string is left out.
-/

namespace OmniaJit.Lua

variable {α : Type*}

/-- `string.sub(s, i, j)` -/
def sub (s : List α) (i j : ℤ) : List α :=
  let start := if i < 0 then i + s.length + 1 else i
  let stop := if j < 0 then j + s.length + 1 else j
  (s.take (min stop s.length).toNat).drop (max start 1 - 1).toNat

/-- One character. -/
theorem sub_char (s : List α) (i : ℕ) : sub s (i + 1) (i + 1) = s[i]?.toList := by
  have start : (max ((i : ℤ) + 1) 1 - 1).toNat = i := by omega
  have stop : (min ((i : ℤ) + 1) s.length).toNat = min (i + 1) s.length := by omega
  simp only [sub, if_neg (show ¬ (i : ℤ) + 1 < 0 by omega), start, stop]
  rcases Nat.lt_or_ge i s.length with inside | outside
  · rw [List.drop_take, show min (i + 1) s.length - i = 1 by omega, List.take_one, List.head?_drop]
  · rw [List.drop_eq_nil_of_le (by rw [List.length_take]; omega), List.getElem?_eq_none outside]
    rfl

theorem sub_take (s : List α) (n : ℕ) : sub s 1 n = s.take n := by
  have stop : (min (n : ℤ) s.length).toNat = min n s.length := by omega
  simp only [sub, if_neg (show ¬ (1 : ℤ) < 0 by decide), if_neg (show ¬ (n : ℤ) < 0 by omega), stop]
  exact (List.take_eq_take_min ..).symm

theorem sub_drop (s : List α) (n : ℕ) : sub s (n + 1) (-1) = s.drop n := by
  have start : (max ((n : ℤ) + 1) 1 - 1).toNat = n := by omega
  have stop : (min (-1 + (s.length : ℤ) + 1) s.length).toNat = s.length := by omega
  simp only [sub, if_neg (show ¬ (n : ℤ) + 1 < 0 by omega), if_pos (show (-1 : ℤ) < 0 by decide), start, stop,
    List.take_length]

end OmniaJit.Lua
