import Mathlib.Data.List.AList

/-! # Tables and lists of pairs

A table that holds the pairs of a list and nothing else, while pairs are put into the list and taken out of it at
any place.
-/

namespace OmniaJit.Data

variable {α β : Type*} [DecidableEq α] {m : AList fun _ : α => β} {front back : List (α × β)} {a : α} {b : β}

def HoldsPairs (m : AList fun _ : α => β) (pairs : List (α × β)) : Prop :=
  ∀ a b, m.lookup a = some b ↔ (a, b) ∈ pairs

theorem holdsPairs_empty : HoldsPairs (∅ : AList fun _ : α => β) [] := fun a b => by
  simp [AList.lookup_empty]

theorem HoldsPairs.lookup {pairs : List (α × β)} (holds : HoldsPairs m pairs) (member : (a, b) ∈ pairs) :
    m.lookup a = some b := (holds a b).mpr member

theorem HoldsPairs.lookup_none {pairs : List (α × β)} (holds : HoldsPairs m pairs)
    (absent : a ∉ pairs.map Prod.fst) : m.lookup a = none := by
  cases found : m.lookup a with
  | none => rfl
  | some b => exact absurd (List.mem_map_of_mem ((holds a b).mp found)) absent

theorem HoldsPairs.erase (holds : HoldsPairs m (front ++ (a, b) :: back))
    (distinct : ((front ++ (a, b) :: back).map Prod.fst).Nodup) : HoldsPairs (m.erase a) (front ++ back) := by
  rw [List.map_append, List.map_cons, List.nodup_middle, List.nodup_cons, ← List.map_append] at distinct
  intro a' b'
  by_cases same : a' = a
  · subst same
    rw [AList.lookup_erase]
    refine ⟨fun none => ?_, fun member => absurd (List.mem_map_of_mem member) distinct.1⟩
    cases none
  · rw [AList.lookup_erase_ne same, holds, List.mem_append, List.mem_append, List.mem_cons]
    have other : (a', b') ≠ (a, b) := fun pair => same (congrArg Prod.fst pair)
    simp only [other, false_or]

theorem HoldsPairs.insert (holds : HoldsPairs m (front ++ back)) (absent : a ∉ (front ++ back).map Prod.fst) (b : β) :
    HoldsPairs (m.insert a b) (front ++ (a, b) :: back) := by
  intro a' b'
  rw [List.mem_append, List.mem_cons, or_left_comm, ← List.mem_append]
  by_cases same : a' = a
  · subst same
    rw [AList.lookup_insert, Option.some_inj]
    constructor
    · rintro rfl
      exact .inl rfl
    · rintro (pair | old)
      · exact (congrArg Prod.snd pair).symm
      · exact absurd (List.mem_map_of_mem old) absent
  · rw [AList.lookup_insert_ne same, holds]
    have other : (a', b') ≠ (a, b) := fun pair => same (congrArg Prod.fst pair)
    simp only [other, false_or]

end OmniaJit.Data
