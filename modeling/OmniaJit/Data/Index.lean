import Mathlib.Data.List.Basic
import Mathlib.Data.List.Induction

/-! # Lists by index

A list read back entry by entry, and an insertion between two parts of a list.
-/

namespace OmniaJit.Data

variable {α : Type*}

theorem filterMap_getElem?_range (l : List α) :
    (List.range l.length).filterMap (fun i => l[i]?) = l := by
  induction l using List.reverseRecOn with
  | nil => rfl
  | append_singleton l x ih =>
    have earlier : (List.range l.length).filterMap (fun i => (l ++ [x])[i]?) = l := by
      refine (List.filterMap_congr fun i member => ?_).trans ih
      rw [List.getElem?_append_left (List.mem_range.mp member)]
    rw [List.length_append, List.length_singleton, List.range_succ, List.filterMap_append, earlier]
    simp

theorem insertIdx_length_append (front : List α) (v : α) (back : List α) :
    (front ++ back).insertIdx front.length v = front ++ v :: back := by
  induction front with
  | nil => rfl
  | cons head front ih => rw [List.cons_append, List.length_cons, List.insertIdx_succ_cons, ih]; rfl

end OmniaJit.Data
