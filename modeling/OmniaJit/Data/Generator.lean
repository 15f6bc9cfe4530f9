import Mathlib.Data.Fintype.BigOperators

/-! # Seeded generators

A generator is set by a seed and draws numbers below `n` from then on. Strings of draws are counted
against the seeds that start them.
-/

namespace OmniaJit.Data

structure Generator (n : ℕ) where
  State : Type
  randomseed : ℕ → State
  random : State → Fin n × State

namespace Generator

variable {n : ℕ} (g : Generator n)

/-- The state after `m` draws. -/
def after : ℕ → g.State → g.State
  | 0, s => s
  | m + 1, s => (g.random (after m s)).2

/-- The first `m` draws. -/
def draws : ℕ → g.State → List (Fin n)
  | 0, _ => []
  | m + 1, s => draws m s ++ [(g.random (g.after m s)).1]

/-- The state that one seed after the other leaves. -/
def reseed (s : g.State) (seeds : List ℕ) : g.State := seeds.foldl (fun _ seed => g.randomseed seed) s

theorem reseed_concat (s : g.State) (seeds : List ℕ) (seed : ℕ) :
    g.reseed s (seeds ++ [seed]) = g.randomseed seed := by
  rw [reseed, List.foldl_concat]

@[simp] theorem length_draws (m : ℕ) (s : g.State) : (g.draws m s).length = m := by
  induction m with
  | zero => rfl
  | succ m ih => rw [draws, List.length_append, ih, List.length_singleton]

/-- Some seed below `seeds` starts each string of `m` draws. -/
def Covers (seeds m : ℕ) : Prop :=
  ∀ l : List (Fin n), l.length = m → ∃ seed < seeds, g.draws m (g.randomseed seed) = l

variable {g} {seeds m : ℕ}

theorem covers_one_iff : g.Covers seeds 1 ↔ ∀ k, ∃ seed < seeds, (g.random (g.randomseed seed)).1 = k := by
  constructor
  · intro covers k
    obtain ⟨seed, small, drawn⟩ := covers [k] rfl
    exact ⟨seed, small, List.head_eq_of_cons_eq drawn⟩
  · intro first l single
    obtain ⟨k, rfl⟩ := List.length_eq_one_iff.mp single
    obtain ⟨seed, small, drawn⟩ := first k
    exact ⟨seed, small, congrArg (fun k => [k]) drawn⟩

/-- There are no more strings than seeds. -/
theorem Covers.pow_le (covers : g.Covers seeds m) : n ^ m ≤ seeds := by
  let start (seed : Fin seeds) : List.Vector (Fin n) m := ⟨g.draws m (g.randomseed seed), g.length_draws m _⟩
  have onto : Function.Surjective start := by
    intro l
    obtain ⟨seed, small, drawn⟩ := covers l.toList l.toList_length
    exact ⟨⟨seed, small⟩, Subtype.ext drawn⟩
  simpa only [card_vector, Fintype.card_fin] using Fintype.card_le_of_surjective start onto

end Generator

end OmniaJit.Data
