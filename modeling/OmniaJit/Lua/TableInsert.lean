import Mathlib.Data.List.InsertIdx
import OmniaJit.Lua.Table

/-! # Sequences and `table.insert`

A sequence is a table whose entries are those of a list, at the indices from 1. The length operator
returns some border, and which one it is for a table with holes is left open; a sequence has only one.
-/

namespace OmniaJit.Lua

namespace Table

variable {α : Type*}

/-- An index where the entries stop. -/
def IsBorder (t : Table α) (n : ℕ) : Prop := (n = 0 ∨ t.get n ≠ none) ∧ t.get (n + 1) = none

theorem isBorder_length (t : Table α) : t.IsBorder t.length := by
  constructor
  · rcases Nat.eq_zero_or_pos t.length with zero | positive
    · exact .inl zero
    · have before : t.get ((t.length - 1 : ℕ) + 1) ≠ none :=
        Nat.find_min t.exists_border (Nat.sub_lt positive Nat.one_pos)
      rw [show ((t.length - 1 : ℕ) : ℤ) + 1 = t.length by omega] at before
      exact .inr before
  · exact Nat.find_spec t.exists_border

/-- The entries are those of `l`. -/
def IsSequence (t : Table α) (l : List α) : Prop :=
  ∀ k : ℤ, t.get k = if 1 ≤ k then l[(k - 1).toNat]? else none

/-- `{ l[1], l[2], ... }` -/
def ofList (l : List α) : Table α where
  get k := if 1 ≤ k then l[(k - 1).toNat]? else none
  finite := by
    refine ⟨l.length + 1, fun k above => ?_⟩
    split_ifs
    · exact List.getElem?_eq_none (by omega)
    · rfl

theorem isSequence_ofList (l : List α) : (ofList l).IsSequence l := fun _ => rfl

theorem isSequence_empty : (empty : Table α).IsSequence [] := by
  intro k
  rw [get_empty, List.getElem?_nil, ite_self]

namespace IsSequence

variable {t : Table α} {l : List α}

theorem eq_ofList (sequence : t.IsSequence l) : t = ofList l :=
  Table.ext (funext sequence)

theorem get_succ (sequence : t.IsSequence l) (i : ℕ) : t.get (i + 1) = l[i]? := by
  rw [sequence, if_pos (by omega), Int.add_sub_cancel, Int.toNat_natCast]

/-- Only the indices from 1 to the length hold a value. -/
theorem get_ne_none_iff (sequence : t.IsSequence l) (k : ℤ) :
    t.get k ≠ none ↔ 1 ≤ k ∧ k ≤ l.length := by
  rw [sequence]
  split_ifs with positive
  · rw [ne_eq, List.getElem?_eq_none_iff]
    omega
  · constructor
    · exact fun impossible => absurd rfl impossible
    · exact fun inside => absurd inside.1 positive

theorem border_eq (sequence : t.IsSequence l) {n : ℕ} (border : t.IsBorder n) : n = l.length := by
  obtain ⟨inside, stop⟩ := border
  have above : l.length ≤ n := by
    rw [sequence.get_succ] at stop
    exact List.getElem?_eq_none_iff.mp stop
  rcases inside with rfl | inside
  · omega
  · have := (sequence.get_ne_none_iff n).mp inside
    omega

theorem set_lt (sequence : t.IsSequence l) {i : ℕ} (bound : i < l.length) (v : α) :
    (t.set (i + 1) (some v)).IsSequence (l.set i v) := by
  intro k
  rw [get_set, sequence, List.getElem?_set]
  rcases eq_or_ne k (i + 1) with rfl | other
  · rw [if_pos rfl, if_pos (by omega), if_pos (by omega), if_pos bound]
  · rw [if_neg other]
    split_ifs <;> first | rfl | omega

theorem set_length (sequence : t.IsSequence l) (v : α) :
    (t.set (l.length + 1) (some v)).IsSequence (l ++ [v]) := by
  intro k
  rw [get_set, sequence, List.getElem?_append]
  rcases eq_or_ne k (l.length + 1) with rfl | other
  · rw [if_pos rfl, if_pos (by omega), if_neg (by omega)]
    simp
  · rw [if_neg other]
    split_ifs with positive inside
    · rfl
    · rw [List.getElem?_eq_none (by omega), List.getElem?_eq_none (by rw [List.length_singleton]; omega)]
    · rfl

end IsSequence

/-- `for i = n + k, n + 1, -1 do t[i] = t[i-1] end` -/
def shiftUp (t : Table α) (n : ℤ) : ℕ → Table α
  | 0 => t
  | k + 1 => (t.set (n + k + 1) (t.get (n + k))).shiftUp n k

theorem get_shiftUp (t : Table α) (n : ℤ) (k : ℕ) (j : ℤ) :
    (t.shiftUp n k).get j = if n < j ∧ j ≤ n + k then t.get (j - 1) else t.get j := by
  induction k generalizing t with
  | zero => rw [if_neg (by omega)]; rfl
  | succ k ih =>
    rw [shiftUp, ih, get_set, get_set]
    rcases eq_or_ne j (n + k + 1) with rfl | other
    · rw [if_neg (show ¬ (n < n + k + 1 ∧ n + k + 1 ≤ n + k) by omega), if_pos rfl,
        if_pos (show n < n + k + 1 ∧ n + k + 1 ≤ n + ((k + 1 : ℕ) : ℤ) by omega), Int.add_sub_cancel]
    · rw [if_neg other]
      split_ifs <;> first | rfl | omega

end Table

/-- The operator `#`. -/
structure LengthOperator (α : Type*) where
  len : Table α → ℕ
  border (t : Table α) : t.IsBorder (len t)

namespace LengthOperator

variable {α : Type*} (op : LengthOperator α)

/-- The operator that finds the first border. -/
def first : LengthOperator α where
  len := Table.length
  border := Table.isBorder_length

/-- `table.insert(t, v)` -/
def append (t : Table α) (v : α) : Table α := t.set (op.len t + 1) (some v)

/-- `table.insert(t, n, v)`. An index above the length plus 1 moves nothing. -/
def insert (t : Table α) (n : ℤ) (v : α) : Table α :=
  (t.shiftUp n (op.len t + 1 - n).toNat).set n (some v)

theorem get_insert (t : Table α) (n : ℤ) (v : α) (j : ℤ) :
    (op.insert t n v).get j =
      if j = n then some v else if n < j ∧ j ≤ op.len t + 1 then t.get (j - 1) else t.get j := by
  rw [insert, Table.get_set, Table.get_shiftUp]
  split_ifs <;> first | rfl | omega

variable {t : Table α} {l : List α}

theorem len_eq (sequence : t.IsSequence l) : op.len t = l.length :=
  sequence.border_eq (op.border t)

theorem append_isSequence (sequence : t.IsSequence l) (v : α) : (op.append t v).IsSequence (l ++ [v]) := by
  rw [append, op.len_eq sequence]
  exact sequence.set_length v

theorem insert_isSequence (sequence : t.IsSequence l) {i : ℕ} (bound : i ≤ l.length) (v : α) :
    (op.insert t (i + 1) v).IsSequence (l.insertIdx i v) := by
  intro j
  rw [get_insert, op.len_eq sequence, sequence, sequence, List.getElem?_insertIdx]
  rcases Int.lt_trichotomy j (i + 1) with before | rfl | after
  · rw [if_neg (by omega), if_neg (by omega)]
    split_ifs <;> first | rfl | omega
  · rw [if_pos rfl, if_pos (by omega), if_neg (by omega), if_pos (by omega), if_pos (by omega)]
  · rw [if_neg (show ¬ j = i + 1 by omega), if_pos (show 1 ≤ j - 1 by omega),
      if_neg (show ¬ (j - 1).toNat < i by omega), if_neg (show ¬ (j - 1).toNat = i by omega),
      show (j - 1 - 1).toNat = (j - 1).toNat - 1 by omega]
    split_ifs
    · rfl
    · omega
    · rw [List.getElem?_eq_none (by omega), List.getElem?_eq_none (by omega)]
    · omega

end LengthOperator

end OmniaJit.Lua
