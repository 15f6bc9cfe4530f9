import Mathlib.Algebra.Group.End
import Mathlib.Logic.Equiv.Basic
import Mathlib.Data.Int.Order.Basic

/-! # Rearrangements of a stretch

A sequence with the values from one index to another in a different order, and how a stretch that is split at a
value gets sorted.
-/

namespace OmniaJit.Data

variable {β : Type*} {l u : ℤ} {f g h : ℤ → β}

/-- The values of `f` from `l` to `u` in some order, and the other ones where they are. -/
def Rearranged (l u : ℤ) (f g : ℤ → β) : Prop :=
  ∃ π : Equiv.Perm ℤ, (∀ k, ¬(l ≤ k ∧ k ≤ u) → π k = k) ∧ ∀ k, g k = f (π k)

/-- The sequence with two values in each other's place. -/
def swapped (f : ℤ → β) (i j : ℤ) : ℤ → β := fun k => if k = j then f i else if k = i then f j else f k

theorem swapped_right (f : ℤ → β) (i j : ℤ) : swapped f i j j = f i := if_pos rfl

theorem swapped_left (f : ℤ → β) (i j : ℤ) : swapped f i j i = f j := by
  rw [swapped, if_pos rfl]
  split_ifs with same
  · rw [same]
  · rfl

theorem swapped_of_ne {i j k : ℤ} (f : ℤ → β) (left : k ≠ i) (right : k ≠ j) : swapped f i j k = f k := by
  rw [swapped, if_neg right, if_neg left]

namespace Rearranged

theorem refl (l u : ℤ) (f : ℤ → β) : Rearranged l u f f := ⟨1, fun _ _ => rfl, fun _ => rfl⟩

theorem trans (first : Rearranged l u f g) (second : Rearranged l u g h) : Rearranged l u f h := by
  obtain ⟨π, outside, values⟩ := first
  obtain ⟨ρ, outside', values'⟩ := second
  refine ⟨ρ.trans π, fun k out => ?_, fun k => ?_⟩
  · rw [Equiv.trans_apply, outside' k out, outside k out]
  · rw [Equiv.trans_apply, values', values]

theorem widen {l' u' : ℤ} (rearranged : Rearranged l u f g) (low : l' ≤ l) (high : u ≤ u') :
    Rearranged l' u' f g := by
  obtain ⟨π, outside, values⟩ := rearranged
  exact ⟨π, fun k out => outside k fun inside => out ⟨low.trans inside.1, inside.2.trans high⟩, values⟩

theorem swap {i j : ℤ} (f : ℤ → β) (inside : l ≤ i ∧ i ≤ u) (inside' : l ≤ j ∧ j ≤ u) :
    Rearranged l u f (swapped f i j) := by
  refine ⟨Equiv.swap j i, fun k out => ?_, fun k => ?_⟩
  · refine Equiv.swap_apply_of_ne_of_ne ?_ ?_
    · rintro rfl
      exact out inside'
    · rintro rfl
      exact out inside
  · rw [swapped, Equiv.swap_apply_def]
    split_ifs <;> rfl

theorem outside (rearranged : Rearranged l u f g) {k : ℤ} (out : ¬(l ≤ k ∧ k ≤ u)) : g k = f k := by
  obtain ⟨π, outside, values⟩ := rearranged
  rw [values, outside k out]

/-- A value comes from the stretch. -/
theorem source (rearranged : Rearranged l u f g) {k : ℤ} (inside : l ≤ k ∧ k ≤ u) :
    ∃ k', (l ≤ k' ∧ k' ≤ u) ∧ g k = f k' := by
  obtain ⟨π, outside, values⟩ := rearranged
  refine ⟨π k, ?_, values k⟩
  by_contra out
  have fixed := π.injective (outside (π k) out)
  exact out (fixed.symm ▸ inside)

/-- What holds of all values of the stretch holds of them in any order. -/
theorem forall_of (rearranged : Rearranged l u f g) {p : β → Prop} (all : ∀ k, l ≤ k → k ≤ u → p (f k)) :
    ∀ k, l ≤ k → k ≤ u → p (g k) := by
  intro k low high
  obtain ⟨k', inside, same⟩ := rearranged.source ⟨low, high⟩
  rw [same]
  exact all k' inside.1 inside.2

end Rearranged

variable {le : β → β → Prop}

/-- Every value of the stretch comes before the ones behind it. -/
def Sorted (le : β → β → Prop) (l u : ℤ) (f : ℤ → β) : Prop :=
  ∀ p q, l ≤ p → p < q → q ≤ u → le (f p) (f q)

theorem sorted_of_le (short : u ≤ l) : Sorted le l u f := fun _ _ _ _ _ => by omega

/-- The values in front of an index and those behind it are sorted, with a value between them. -/
theorem Sorted.join {i : ℤ} (inside : l ≤ i ∧ i ≤ u) (low : ∀ k, l ≤ k → k ≤ i - 1 → le (f k) (f i))
    (high : ∀ k, i + 1 ≤ k → k ≤ u → le (f i) (f k)) (front : Sorted le l (i - 1) f) (back : Sorted le (i + 1) u f)
    (trans : ∀ p q, l ≤ p → p < i → i < q → q ≤ u → le (f p) (f i) → le (f i) (f q) → le (f p) (f q)) :
    Sorted le l u f := by
  intro p q first between last
  rcases lt_trichotomy q i with before | rfl | behind
  · exact front p q first between (by omega)
  · exact low p first (by omega)
  · rcases lt_trichotomy p i with before | rfl | after
    · exact trans p q first before behind last (low p first (by omega)) (high q (by omega) last)
    · exact high q (by omega) last
    · exact back p q (by omega) between last

/-- The rest of the sequence does not matter. -/
theorem Sorted.congr (sorted : Sorted le l u f) (same : ∀ k, l ≤ k → k ≤ u → g k = f k) : Sorted le l u g := by
  intro p q first between last
  rw [same p first (by omega), same q (by omega) last]
  exact sorted p q first between last

end OmniaJit.Data
