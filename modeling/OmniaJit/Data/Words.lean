import Mathlib.Data.List.TakeWhile

/-! # Words

A list holds words: the stretches, as long as possible, of elements with a property. The words are
determined by any way of writing them with gaps between them.
-/

namespace OmniaJit.Data

variable {α : Type*} {holds : α → Bool}

/-- The words of a list, in order. -/
def stretches (holds : α → Bool) : List α → List (List α)
  | [] => []
  | c :: l => if holds c then (c :: l.takeWhile holds) :: stretches holds (l.dropWhile holds) else stretches holds l
termination_by l => l.length
decreasing_by
  · exact Nat.lt_succ_of_le (List.dropWhile_sublist holds).length_le
  · exact Nat.lt_succ_self _

/-- The words `ws`, written with gaps between them, and perhaps before and after them. -/
inductive Renders (holds : α → Bool) : List (List α) → List α → Prop
  | nil {gap : List α} (free : ∀ c ∈ gap, ¬ holds c) : Renders holds [] gap
  | cons {gap word rest : List α} {ws : List (List α)} (free : ∀ c ∈ gap, ¬ holds c) (nonempty : word ≠ [])
      (all : ∀ c ∈ word, holds c) (ends : ¬ rest.head?.any holds) (later : Renders holds ws rest) :
      Renders holds (word :: ws) (gap ++ (word ++ rest))

section Equations

theorem stretches_skip {c : α} {l : List α} (fails : ¬ holds c) : stretches holds (c :: l) = stretches holds l := by
  rw [stretches, if_neg fails]

theorem stretches_gap {gap l : List α} (free : ∀ c ∈ gap, ¬ holds c) :
    stretches holds (gap ++ l) = stretches holds l := by
  induction gap with
  | nil => rfl
  | cons c gap ih =>
    obtain ⟨fails, free⟩ := List.forall_mem_cons.mp free
    rw [List.cons_append, stretches_skip fails, ih free]

theorem takeWhile_stop {l : List α} (ends : ¬ l.head?.any holds) :
    l.takeWhile holds = [] ∧ l.dropWhile holds = l := by
  cases l with
  | nil => exact ⟨rfl, rfl⟩
  | cons c l =>
    rw [List.head?_cons, Option.any_some] at ends
    rw [List.takeWhile_cons, List.dropWhile_cons, if_neg ends, if_neg ends]
    exact ⟨rfl, rfl⟩

theorem takeWhile_word {word rest : List α} (all : ∀ c ∈ word, holds c) (ends : ¬ rest.head?.any holds) :
    (word ++ rest).takeWhile holds = word ∧ (word ++ rest).dropWhile holds = rest := by
  rw [List.takeWhile_append_of_pos all, List.dropWhile_append_of_pos all, (takeWhile_stop ends).1,
    (takeWhile_stop ends).2, List.append_nil]
  exact ⟨rfl, rfl⟩

theorem dropWhile_head (l : List α) : ¬ (l.dropWhile holds).head?.any holds := by
  have stop := List.head?_dropWhile_not holds l
  cases found : (l.dropWhile holds).head? with
  | none => exact Bool.false_ne_true
  | some c =>
    rw [found] at stop
    rw [Option.any_some, stop]
    exact Bool.false_ne_true

theorem stretches_word {word rest : List α} (nonempty : word ≠ []) (all : ∀ c ∈ word, holds c)
    (ends : ¬ rest.head?.any holds) : stretches holds (word ++ rest) = word :: stretches holds rest := by
  cases word with
  | nil => exact absurd rfl nonempty
  | cons c word =>
    obtain ⟨first, others⟩ := List.forall_mem_cons.mp all
    rw [List.cons_append, stretches, if_pos first, (takeWhile_word others ends).1, (takeWhile_word others ends).2]

end Equations

theorem Renders.skip {ws : List (List α)} {l : List α} {c : α} (renders : Renders holds ws l)
    (fails : ¬ holds c) : Renders holds ws (c :: l) := by
  cases renders with
  | nil free => exact .nil (List.forall_mem_cons.mpr ⟨fails, free⟩)
  | cons free nonempty all ends later =>
    rw [← List.cons_append]
    exact .cons (List.forall_mem_cons.mpr ⟨fails, free⟩) nonempty all ends later

theorem renders_stretches (l : List α) : Renders holds (stretches holds l) l := by
  induction l using stretches.induct holds with
  | case1 =>
    rw [stretches]
    exact .nil (by simp)
  | case2 c l here ih =>
    rw [stretches, if_pos here]
    have all : ∀ x ∈ c :: l.takeWhile holds, holds x :=
      List.forall_mem_cons.mpr ⟨here, fun x member => List.mem_takeWhile_imp member⟩
    have whole : c :: l = [] ++ ((c :: l.takeWhile holds) ++ l.dropWhile holds) := by
      rw [List.nil_append, List.cons_append, List.takeWhile_append_dropWhile]
    rw [whole]
    exact .cons (by simp) (List.cons_ne_nil _ _) all (dropWhile_head l) ih
  | case3 c l fails ih =>
    rw [stretches_skip fails]
    exact ih.skip fails

/-- The words of a list are those that render it. -/
theorem stretches_eq_iff {ws : List (List α)} {l : List α} : stretches holds l = ws ↔ Renders holds ws l := by
  constructor
  · rintro rfl
    exact renders_stretches l
  · intro renders
    induction renders with
    | nil free =>
      rename_i gap
      rw [← List.append_nil gap, stretches_gap free, stretches]
    | cons free nonempty all ends _ ih => rw [stretches_gap free, stretches_word nonempty all ends, ih]

theorem Renders.words {ws : List (List α)} {l : List α} (renders : Renders holds ws l) :
    ∀ word ∈ ws, word ≠ [] ∧ ∀ c ∈ word, holds c := by
  induction renders with
  | nil => simp
  | cons _ nonempty all _ _ ih => exact List.forall_mem_cons.mpr ⟨⟨nonempty, all⟩, ih⟩

/-- Words with one separator between them. -/
theorem stretches_intercalate {separator : α} {ws : List (List α)} (outside : ¬ holds separator)
    (words : ∀ word ∈ ws, word ≠ [] ∧ ∀ c ∈ word, holds c) :
    stretches holds ([separator].intercalate ws) = ws := by
  induction ws with
  | nil => rw [List.intercalate_nil, stretches]
  | cons word ws ih =>
    obtain ⟨⟨nonempty, all⟩, others⟩ := List.forall_mem_cons.mp words
    cases ws with
    | nil =>
      have alone := @stretches_word _ holds word [] nonempty all Bool.false_ne_true
      rw [List.intercalate_singleton]
      rwa [List.append_nil, stretches] at alone
    | cons next ws =>
      rw [List.intercalate_cons_cons, List.append_assoc, List.singleton_append,
        stretches_word nonempty all (by simpa using outside), stretches_skip outside, ih others]

end OmniaJit.Data
