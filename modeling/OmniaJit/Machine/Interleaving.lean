import Mathlib.Data.List.Basic

/-! # Interleavings of two logs

Two processes that run side by side produce one log of both. Each keeps its own order; nothing
else is fixed.
-/

namespace OmniaJit.Machine

variable {α β : Type*}

/-- `merged` is a merge of the two logs `left` and `right`. -/
inductive Interleaved : List α → List α → List α → Prop
  | nil : Interleaved [] [] []
  | left {left right merged : List α} (event : α) (rest : Interleaved left right merged) :
      Interleaved (event :: left) right (event :: merged)
  | right {left right merged : List α} (event : α) (rest : Interleaved left right merged) :
      Interleaved left (event :: right) (event :: merged)

namespace Interleaved

variable {left right merged : List α}

/-- What is found first in a merge is what is found first in one of the two logs. -/
theorem findSome?_eq (both : Interleaved left right merged) (f : α → Option β) :
    merged.findSome? f = (left.findSome? f).or (right.findSome? f) ∨
      merged.findSome? f = (right.findSome? f).or (left.findSome? f) := by
  induction both with
  | nil => exact .inl rfl
  | left head rest ih =>
    simp only [List.findSome?_cons]
    cases f head with
    | none => exact ih
    | some value => exact .inl rfl
  | right head rest ih =>
    simp only [List.findSome?_cons]
    cases f head with
    | none => exact ih
    | some value => exact .inr rfl

/-- One log after the other. -/
theorem append (left right : List α) : Interleaved left right (left ++ right) := by
  induction left with
  | nil =>
    induction right with
    | nil => exact .nil
    | cons event right ih => exact .right event ih
  | cons event left ih => exact .left event ih

end Interleaved

end OmniaJit.Machine
