import Mathlib.Data.Nat.Find
import Mathlib.Logic.Function.Basic
import Mathlib.Data.Int.Basic

/-! # Tables with integer keys

The part of a Lua table that is indexed by integers: a partial map with finitely many entries,
where assigning nil removes an entry. The length operator returns a border, which is unique as
long as the positive keys have no gap.
-/

namespace OmniaJit.Lua

@[ext] structure Table (α : Type*) where
  get : ℤ → Option α
  finite : ∃ bound : ℕ, ∀ i : ℤ, bound ≤ i.natAbs → get i = none

namespace Table

variable {α : Type*}

/-- `{}`. -/
def empty : Table α where
  get _ := none
  finite := ⟨0, fun _ _ => rfl⟩

/-- `t[k] = v`. -/
def set (t : Table α) (k : ℤ) (v : Option α) : Table α where
  get := Function.update t.get k v
  finite := by
    obtain ⟨bound, free⟩ := t.finite
    refine ⟨max bound (k.natAbs + 1), fun i above => ?_⟩
    rw [Function.update_of_ne (by rintro rfl; omega), free i (by omega)]

@[simp] theorem get_empty (k : ℤ) : (empty : Table α).get k = none := rfl

theorem get_set (t : Table α) (k i : ℤ) (v : Option α) :
    (t.set k v).get i = if i = k then v else t.get i :=
  Function.update_apply ..

theorem exists_border (t : Table α) : ∃ n : ℕ, t.get (n + 1) = none := by
  obtain ⟨bound, free⟩ := t.finite
  exact ⟨bound, free _ (by omega)⟩

/-- `#t`: the first border. -/
def length (t : Table α) : ℕ := Nat.find t.exists_border

theorem length_eq {t : Table α} {n : ℕ} (stop : t.get (n + 1) = none)
    (gapless : ∀ i < n, t.get (i + 1) ≠ none) : t.length = n :=
  (Nat.find_eq_iff t.exists_border).mpr ⟨stop, gapless⟩

/-- A loop `for i = s, s + k - 1 do t[i - d] = f(i) end`. -/
def fill (t : Table α) (s k : ℕ) (d : ℤ) (f : ℕ → Option α) : Table α :=
  (List.range' s k).foldl (fun (t : Table α) (i : ℕ) => t.set ((i : ℤ) - d) (f i)) t

theorem get_fill (t : Table α) (s k : ℕ) (d : ℤ) (f : ℕ → Option α) (j : ℤ) :
    (t.fill s k d f).get j = if s ≤ j + d ∧ j + d < s + k then f (j + d).toNat else t.get j := by
  induction k generalizing s t with
  | zero => rw [if_neg (by omega)]; rfl
  | succ k ih =>
    have step : t.fill s (k + 1) d f = (t.set (s - d) (f s)).fill (s + 1) k d f := rfl
    rw [step, ih, get_set]
    rcases eq_or_ne j (s - d) with first | first
    · rw [if_neg (by omega), if_pos first, if_pos (by omega), first]
      simp
    · rw [if_neg first]
      by_cases later : ((s + 1 : ℕ) : ℤ) ≤ j + d ∧ j + d < ((s + 1 : ℕ) : ℤ) + k
      · rw [if_pos later, if_pos (by omega)]
      · rw [if_neg later, if_neg (by omega)]

end Table

end OmniaJit.Lua
