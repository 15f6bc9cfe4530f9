import Mathlib.Data.List.Basic

/-! # Splitting at a separator

A list that is cut at the first occurrence of a separator determines both parts. A list can also be cut
at the last element that is a separator, or at the last place where something longer starts.
-/

namespace OmniaJit.Data

variable {α : Type*} {separator : α}

theorem append_separator_inj {first first' rest rest' : List α} (plain : separator ∉ first)
    (plain' : separator ∉ first')
    (same : first ++ separator :: rest = first' ++ separator :: rest') :
    first = first' ∧ rest = rest' := by
  induction first generalizing first' with
  | nil =>
    cases first' with
    | nil => exact ⟨rfl, (List.cons.inj same).2⟩
    | cons c first' =>
      exact absurd (List.cons.inj same).1 (fun head => plain' (head ▸ List.mem_cons_self ..))
  | cons c first ih =>
    cases first' with
    | nil => exact absurd (List.cons.inj same).1 (fun head => plain (head ▸ List.mem_cons_self ..))
    | cons c' first' =>
      obtain ⟨rfl, rests⟩ := List.cons.inj same
      have tail := ih (fun member => plain (List.mem_cons_of_mem _ member))
        (fun member => plain' (List.mem_cons_of_mem _ member)) rests
      exact ⟨congrArg _ tail.1, tail.2⟩

theorem mem_tail_of_suffix {s t : List α} {x : α} (suffix : t <:+ s) (member : x ∈ t.tail) : x ∈ s.tail := by
  obtain ⟨front, rfl⟩ := suffix
  cases front with
  | nil => exact member
  | cons c front => exact List.mem_append_right front (List.mem_of_mem_tail member)

/-- What comes before the last separator, and what comes after it. -/
def lastSplit (holds : α → Bool) : List α → Option (List α × List α)
  | [] => none
  | c :: s =>
    match lastSplit holds s with
    | some (front, back) => some (c :: front, back)
    | none => if holds c then some ([], s) else none

theorem lastSplit_none {holds : α → Bool} {s : List α} (unsplit : lastSplit holds s = none) :
    ∀ x ∈ s, ¬ holds x := by
  induction s with
  | nil => simp
  | cons c s ih =>
    rw [lastSplit] at unsplit
    split at unsplit
    · cases unsplit
    · rename_i rest
      split_ifs at unsplit with first
      simpa [first] using ih rest

theorem lastSplit_some {holds : α → Bool} {s front back : List α}
    (split : lastSplit holds s = some (front, back)) :
    ∃ c, holds c ∧ s = front ++ c :: back ∧ ∀ x ∈ back, ¬ holds x := by
  induction s generalizing front with
  | nil => cases split
  | cons c s ih =>
    rw [lastSplit] at split
    split at split
    · rename_i front' back' rest
      cases split
      obtain ⟨c', holds', rfl, none⟩ := ih rest
      exact ⟨c', holds', rfl, none⟩
    · rename_i rest
      split_ifs at split with first
      cases split
      exact ⟨c, first, rfl, lastSplit_none rest⟩

section Suffixes

variable {β : Type*} {f : List α → Option β}

/-- The value of `f` at the shortest suffix that has one. -/
def lastSome (f : List α → Option β) : List α → Option β
  | [] => f []
  | c :: s => (lastSome f s).or (f (c :: s))

theorem lastSome_eq_none_iff {s : List α} : lastSome f s = none ↔ ∀ u, u <:+ s → f u = none := by
  induction s with
  | nil =>
    rw [lastSome]
    exact ⟨fun none u suffix => List.suffix_nil.mp suffix ▸ none, fun all => all [] List.suffix_rfl⟩
  | cons c s ih =>
    rw [lastSome, Option.or_eq_none_iff, ih]
    constructor
    · rintro ⟨later, here⟩ u suffix
      rcases List.suffix_cons_iff.mp suffix with rfl | behind
      · exact here
      · exact later u behind
    · intro all
      exact ⟨fun u suffix => all u (suffix.trans (List.suffix_cons c s)), all (c :: s) List.suffix_rfl⟩

theorem lastSome_eq_some_iff {s : List α} {b : β} : lastSome f s = some b ↔
    ∃ t, t <:+ s ∧ f t = some b ∧ ∀ u, u <:+ t → u ≠ t → f u = none := by
  induction s with
  | nil =>
    rw [lastSome]
    constructor
    · intro here
      exact ⟨[], List.suffix_rfl, here, fun u suffix other => absurd (List.suffix_nil.mp suffix) other⟩
    · rintro ⟨t, suffix, here, -⟩
      rwa [← List.suffix_nil.mp suffix]
  | cons c s ih =>
    rw [lastSome, Option.or_eq_some_iff, ih, lastSome_eq_none_iff]
    constructor
    · rintro (⟨t, suffix, here, last⟩ | ⟨none, here⟩)
      · exact ⟨t, suffix.trans (List.suffix_cons c s), here, last⟩
      · refine ⟨c :: s, List.suffix_rfl, here, fun u suffix other => ?_⟩
        exact none u ((List.suffix_cons_iff.mp suffix).resolve_left other)
    · rintro ⟨t, suffix, here, last⟩
      rcases List.suffix_cons_iff.mp suffix with rfl | behind
      · refine .inr ⟨fun u suffix => last u (suffix.trans (List.suffix_cons c s)) ?_, here⟩
        rintro rfl
        exact absurd suffix.length_le (by simp)
      · exact .inl ⟨t, behind, here, last⟩

end Suffixes

end OmniaJit.Data
