import OmniaJit.Lua.TableInsert

/-! # `table.remove` and `table.move`

The two functions that shift values inside of tables. A stretch that overlaps its own destination is copied in the
order in which no value is overwritten before it is read.
-/

namespace OmniaJit.Lua

variable {α : Type*}

namespace Table

/-- `for i = i, i + k - 1 do a[i + d] = b[i] end`, where `b` may be `a` itself. -/
def copyUp (b : Table α → Table α) (d : ℤ) : ℕ → ℤ → Table α → Table α
  | 0, _, a => a
  | k + 1, i, a => copyUp b d k (i + 1) (a.set (i + d) ((b a).get i))

/-- `for i = i, i - k + 1, -1 do a[i + d] = b[i] end` -/
def copyDown (b : Table α → Table α) (d : ℤ) : ℕ → ℤ → Table α → Table α
  | 0, _, a => a
  | k + 1, i, a => copyDown b d k (i - 1) (a.set (i + d) ((b a).get i))

/-- `table.move(a1, f, e, t, a2)`, with no `a2` if it is left out or is `a1`. What is returned is the table that
is written to. -/
def move (a1 : Table α) (f e t : ℤ) (a2 : Option (Table α)) : Table α :=
  let b : Table α → Table α := if a2.isSome then fun _ => a1 else id
  let a := a2.getD a1
  if e ≥ f then
    let d := t - f
    if t > e ∨ t ≤ f ∨ a2.isSome then copyUp b d (e - f + 1).toNat f a
    else copyDown b d (e - f + 1).toNat e a
  else a

/-- From another table. -/
theorem get_copyUp_other (b a : Table α) (d : ℤ) (k : ℕ) (i j : ℤ) :
    (copyUp (fun _ => b) d k i a).get j = if i + d ≤ j ∧ j < i + d + k then b.get (j - d) else a.get j := by
  induction k generalizing i a with
  | zero => exact (if_neg (by omega)).symm
  | succ k ih =>
    rw [copyUp, ih, get_set]
    rcases eq_or_ne j (i + d) with rfl | other
    · rw [if_neg (by omega), if_pos rfl, if_pos (by omega), Int.add_sub_cancel]
    · rw [if_neg other]
      split_ifs <;> first | rfl | omega

/-- The values move down, or further up than there are. -/
theorem get_copyUp (a : Table α) (d : ℤ) {k : ℕ} (clear : d ≤ 0 ∨ k ≤ d) (i j : ℤ) :
    (copyUp id d k i a).get j = if i + d ≤ j ∧ j < i + d + k then a.get (j - d) else a.get j := by
  induction k generalizing i a with
  | zero => exact (if_neg (by omega)).symm
  | succ k ih =>
    rw [copyUp, ih _ (by omega), get_set, get_set]
    rcases eq_or_ne j (i + d) with rfl | other
    · rw [if_neg (by omega), if_pos rfl, if_pos (by omega), Int.add_sub_cancel]
      rfl
    · rw [if_neg other]
      split_ifs <;> first | rfl | omega

/-- The values move up. -/
theorem get_copyDown (a : Table α) {d : ℤ} (up : 0 ≤ d) (k : ℕ) (i j : ℤ) :
    (copyDown id d k i a).get j = if i + d - k < j ∧ j ≤ i + d then a.get (j - d) else a.get j := by
  induction k generalizing i a with
  | zero => exact (if_neg (by omega)).symm
  | succ k ih =>
    rw [copyDown, ih, get_set, get_set]
    rcases eq_or_ne j (i + d) with rfl | other
    · rw [if_neg (by omega), if_pos rfl, if_pos (by omega), Int.add_sub_cancel]
      rfl
    · rw [if_neg other]
      split_ifs <;> first | rfl | omega

/-- Every value arrives as it was before the call, however the two stretches lie, and nothing else changes. -/
theorem get_move (a1 : Table α) (f e t : ℤ) (a2 : Option (Table α)) (j : ℤ) :
    (a1.move f e t a2).get j =
      if t ≤ j ∧ j ≤ t + (e - f) then a1.get (j - t + f) else (a2.getD a1).get j := by
  have start : f + (t - f) = t := by omega
  have source : j - (t - f) = j - t + f := by omega
  by_cases some_ : e ≥ f
  swap
  · rw [move]
    simp only [if_neg some_]
    rw [if_neg (by omega)]
  cases a2 with
  | some a2 =>
    rw [move]
    simp only [if_pos some_, Option.isSome_some, or_true, if_true, Option.getD_some]
    rw [get_copyUp_other, start, source]
    split_ifs <;> first | rfl | omega
  | none =>
    rw [move]
    simp only [if_pos some_, Option.isSome_none, Bool.false_eq_true, if_false, or_false, Option.getD_none]
    by_cases way : t > e ∨ t ≤ f
    · rw [if_pos way, get_copyUp a1 _ (by omega), start, source]
      split_ifs <;> first | rfl | omega
    · rw [if_neg way, get_copyDown a1 (by omega), source]
      split_ifs <;> first | rfl | omega

end Table

namespace LengthOperator

variable (op : LengthOperator α)

/-- `table.remove(t, pos)`: the table and what is returned. -/
def remove (t : Table α) (pos : Option ℤ) : Table α × Option α :=
  let len := op.len t
  match pos with
  | none => if len ≠ 0 then (t.set len none, t.get len) else (t, none)
  | some pos =>
    if 1 ≤ pos ∧ pos ≤ len then
      ((Table.copyUp id (-1) (len - pos).toNat (pos + 1) t).set len none, t.get pos)
    else (t, none)

variable {t : Table α} {l : List α}

theorem get_remove (t : Table α) {pos : ℤ} (inside : 1 ≤ pos ∧ pos ≤ op.len t) (j : ℤ) :
    (op.remove t (some pos)).1.get j =
      if j = op.len t then none else if pos ≤ j ∧ j < op.len t then t.get (j + 1) else t.get j := by
  rw [remove]
  simp only [if_pos inside]
  rw [Table.get_set, Table.get_copyUp t (-1) (.inl (by omega)), Int.sub_neg]
  split_ifs <;> first | rfl | omega

theorem remove_isSequence (sequence : t.IsSequence l) {i : ℕ} (bound : i < l.length) :
    (op.remove t (some (i + 1))).1.IsSequence (l.eraseIdx i) ∧ (op.remove t (some (i + 1))).2 = l[i]? := by
  have len := op.len_eq sequence
  have inside : 1 ≤ (i : ℤ) + 1 ∧ (i : ℤ) + 1 ≤ op.len t := by omega
  constructor
  · intro j
    rw [op.get_remove t inside, sequence, sequence, List.getElem?_eraseIdx, len]
    rcases Int.lt_trichotomy j l.length with before | rfl | behind
    · rw [if_neg (by omega)]
      split_ifs <;> first | rfl | omega | skip
      rw [show (j + 1 - 1).toNat = (j - 1).toNat + 1 by omega]
    · rw [if_pos rfl, if_pos (by omega), if_neg (by omega), List.getElem?_eq_none (by omega)]
    · rw [if_neg (by omega), if_neg (by omega), if_pos (by omega), if_pos (by omega), if_neg (by omega),
        List.getElem?_eq_none (by omega), List.getElem?_eq_none (by omega)]
  · rw [remove]
    simp only [if_pos inside]
    exact sequence.get_succ i

/-- What is inserted is taken out again, and the others are where they were. -/
theorem remove_insert (sequence : t.IsSequence l) {i : ℕ} (bound : i ≤ l.length) (v : α) :
    op.remove (op.insert t (i + 1) v) (some (i + 1)) = (t, some v) := by
  obtain ⟨table, value⟩ := op.remove_isSequence (op.insert_isSequence sequence bound v)
    (i := i) (by rw [List.length_insertIdx_of_le_length bound]; omega)
  rw [List.eraseIdx_insertIdx_self] at table
  rw [List.getElem?_insertIdx_self, if_pos bound] at value
  exact Prod.ext (table.eq_ofList.trans sequence.eq_ofList.symm) value

end LengthOperator

end OmniaJit.Lua
