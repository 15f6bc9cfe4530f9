import OmniaJit.Lua.TableInsert

/-! # Tables with holes

The entries of a table at the indices from 1 on, as a list in which a hole is `none`. Without a hole
they are a sequence, whatever the table has at the other indices.
-/

namespace OmniaJit.Lua

namespace Table

variable {α : Type*}

/-- `t` with these entries at the indices from 1 on. -/
def withSlots (t : Table α) (slots : List (Option α)) : Table α where
  get k := if 1 ≤ k then slots[(k - 1).toNat]?.join else t.get k
  finite := by
    obtain ⟨bound, free⟩ := t.finite
    refine ⟨max bound (slots.length + 1), fun k above => ?_⟩
    split_ifs with positive
    · rw [List.getElem?_eq_none (by omega), Option.join_none]
    · exact free k (by omega)

/-- The entries at the indices from 1 on are those of `l`. -/
def Lists (t : Table α) (l : List α) : Prop := ∀ i : ℕ, t.get (i + 1) = l[i]?

variable (t : Table α)

theorem get_withSlots (slots : List (Option α)) (k : ℤ) :
    (t.withSlots slots).get k = if 1 ≤ k then slots[(k - 1).toNat]?.join else t.get k := rfl

@[simp] theorem get_withSlots_succ (slots : List (Option α)) (i : ℕ) :
    (t.withSlots slots).get (i + 1) = slots[i]?.join := by
  rw [get_withSlots, if_pos (by omega), Int.add_sub_cancel, Int.toNat_natCast]

theorem get_withSlots_below (slots : List (Option α)) {k : ℤ} (below : k ≤ 0) :
    (t.withSlots slots).get k = t.get k := by
  rw [get_withSlots, if_neg (by omega)]

@[simp] theorem withSlots_withSlots (slots slots' : List (Option α)) :
    (t.withSlots slots).withSlots slots' = t.withSlots slots' := by
  ext k : 2
  simp only [get_withSlots]
  split_ifs <;> rfl

/-- The slot behind the first `front`. -/
theorem get_withSlots_append (front : List (Option α)) (slot : Option α) (back : List (Option α)) :
    (t.withSlots (front ++ slot :: back)).get (front.length + 1) = slot := by
  rw [get_withSlots_succ, List.getElem?_append_right le_rfl, Nat.sub_self]
  rfl

/-- An assignment to it. -/
theorem set_withSlots_append (front : List (Option α)) (slot : Option α) (back : List (Option α)) (v : Option α) :
    (t.withSlots (front ++ slot :: back)).set (front.length + 1) v = t.withSlots (front ++ v :: back) := by
  ext k : 2
  rw [get_set]
  rcases eq_or_ne k (front.length + 1) with rfl | other
  · rw [if_pos rfl, get_withSlots_append]
  · rw [if_neg other, get_withSlots, get_withSlots]
    split_ifs with positive
    · rcases Nat.lt_or_ge (k - 1).toNat front.length with before | behind
      · rw [List.getElem?_append_left before, List.getElem?_append_left before]
      · obtain ⟨i, later⟩ : ∃ i, (k - 1).toNat - front.length = i + 1 := Nat.exists_eq_add_one.mpr (by omega)
        rw [List.getElem?_append_right behind, List.getElem?_append_right behind, later,
          List.getElem?_cons_succ, List.getElem?_cons_succ]
    · rfl

/-- `for n = front + 1, front + k do t[n] = nil end` over the last `k` slots. -/
theorem fill_withSlots_append (front back : List (Option α)) :
    (t.withSlots (front ++ back)).fill (front.length + 1) back.length 0 (fun _ => none) = t.withSlots front := by
  ext k : 2
  rw [get_fill, get_withSlots, get_withSlots, Int.add_zero]
  split_ifs with cleared positive
  · rw [List.getElem?_eq_none (by omega), Option.join_none]
  · omega
  · rcases Nat.lt_or_ge (k - 1).toNat front.length with before | behind
    · rw [List.getElem?_append_left before]
    · rw [List.getElem?_eq_none behind, List.getElem?_eq_none (by rw [List.length_append]; omega)]
  · rfl

namespace Lists

variable {t : Table α} {l : List α}

theorem eq_withSlots (lists : t.Lists l) : t.withSlots (l.map some) = t := by
  ext k : 2
  rw [get_withSlots]
  split_ifs with positive
  · have entry := lists (k - 1).toNat
    rw [show ((k - 1).toNat : ℤ) + 1 = k by omega] at entry
    rw [entry, List.getElem?_map]
    cases l[(k - 1).toNat]? <;> rfl
  · rfl

end Lists

theorem lists_withSlots (l : List α) : (t.withSlots (l.map some)).Lists l := by
  intro i
  rw [get_withSlots_succ, List.getElem?_map]
  cases l[i]? <;> rfl

theorem IsSequence.lists {t : Table α} {l : List α} (sequence : t.IsSequence l) : t.Lists l :=
  sequence.get_succ

end Table

namespace LengthOperator

variable {α : Type*} (op : LengthOperator α)

theorem len_of_lists {t : Table α} {l : List α} (lists : t.Lists l) : op.len t = l.length := by
  obtain ⟨inside, stop⟩ := op.border t
  have above : l.length ≤ op.len t := by
    rw [lists] at stop
    exact List.getElem?_eq_none_iff.mp stop
  rcases inside with zero | inside
  · omega
  · by_contra beyond
    obtain ⟨i, last⟩ : ∃ i, op.len t = i + 1 := Nat.exists_eq_add_one.mpr (by omega)
    rw [last, Int.natCast_succ, lists] at inside
    exact inside (List.getElem?_eq_none (by omega))

end LengthOperator

end OmniaJit.Lua
