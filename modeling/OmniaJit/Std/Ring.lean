import Mathlib.Data.List.Rotate
import OmniaJit.Data.Index

/-! # The ring buffer

The circular list of `std.lua`: an array part that grows to `max_size` and is then overwritten at
the cursor. Pushing keeps the most recent values, in a rotation that depends on how many values
have been pushed. The two readers `table` and `concat` go through the array in slot order, the
iterator goes backwards from the cursor.
-/

namespace OmniaJit.Std

open OmniaJit.Data

/-- The fields of a ring and its array part. -/
structure Ring (α : Type*) where
  max_size : ℕ
  size : ℕ := 0
  cursor : ℕ := 1
  slots : List α := []

namespace Ring

variable {α : Type*}

def new (max_size : ℕ) : Ring α := { max_size := max_size }

def push (self : Ring α) (value : α) : Ring α :=
  if self.size < self.max_size then
    { self with slots := self.slots ++ [value], size := self.size + 1 }
  else
    { self with
      slots := self.slots.set (self.cursor - 1) value
      cursor := self.cursor % self.max_size + 1 }

/-- `ring:concat(c)`, a loop over the slots. -/
def concat {χ : Type*} (tostring : α → List χ) (self : Ring α) (c : List χ) : List χ :=
  self.slots.foldl (fun s value => s ++ tostring value ++ c) []

/-- `ring:table()`. -/
def table {χ : Type*} (tostring : α → List χ) (self : Ring α) : List (List χ) :=
  self.slots.map tostring

/-- The `i`-th call of the function `ring:iterator()` returns. -/
def iterator (self : Ring α) (i : ℕ) : Option α :=
  if i ≤ self.size then
    self.slots[((self.cursor - i - 1 : ℤ) % (self.size : ℤ)).toNat]?
  else none

/-- What the iterator yields until it returns nil. -/
def yields (self : Ring α) : List α := (List.range' 1 self.size).filterMap self.iterator

def pushAll (m : ℕ) (values : List α) : Ring α := values.foldl push (new m)

/-- The last `m` values, oldest first. -/
def recent (m : ℕ) (values : List α) : List α := values.drop (values.length - m)

/-- What the fields say after `values` have been pushed onto a ring of size `m`. -/
structure Holds (m : ℕ) (values : List α) (r : Ring α) : Prop where
  max_size : r.max_size = m
  size : r.size = min values.length m
  length : r.slots.length = r.size
  cursor : r.cursor = if values.length < m then 1 else values.length % m + 1
  content : r.slots.rotate (r.cursor - 1) = recent m values

theorem recent_of_le {m : ℕ} {values : List α} (few : values.length ≤ m) :
    recent m values = values := by
  rw [recent, Nat.sub_eq_zero_of_le few, List.drop_zero]

theorem length_recent (m : ℕ) (values : List α) :
    (recent m values).length = min values.length m := by
  rw [recent, List.length_drop]
  omega

/-- One more value pushes the oldest one out. -/
theorem recent_append {m : ℕ} (positive : 0 < m) {values : List α} (full : m ≤ values.length)
    (value : α) : recent m (values ++ [value]) = (recent m values).tail ++ [value] := by
  have split : (values ++ [value]).length - m = (values.length - m) + 1 := by
    simp only [List.length_append, List.length_singleton]
    omega
  rw [recent, recent, split, List.drop_append_of_le_length (by omega), List.tail_drop]

/-- Overwriting the oldest slot and moving the cursor past it. -/
theorem rotate_set {slots : List α} {k : ℕ} (bound : k < slots.length) (value : α) :
    (slots.set k value).rotate (k + 1) = (slots.rotate k).tail ++ [value] := by
  have newest : (slots.take (k + 1)).set k value = slots.take k ++ [value] := by
    rw [List.take_succ_eq_append_getElem bound,
      List.set_append_right _ _ (by rw [List.length_take]; omega), List.length_take,
      Nat.min_eq_left (Nat.le_of_lt bound), Nat.sub_self]
    rfl
  rw [List.rotate_eq_drop_append_take (by rw [List.length_set]; omega),
    List.rotate_eq_drop_append_take (by omega), List.drop_set_of_lt (by omega), List.take_set,
    newest, List.tail_append_of_ne_nil (by simpa using bound), List.tail_drop, List.append_assoc]

theorem rotate_mod_of_length {m : ℕ} {l : List α} (length : l.length = m) (k : ℕ) :
    l.rotate (k % m) = l.rotate k := by
  rw [← length, List.rotate_mod]

theorem Holds.push {m : ℕ} (positive : 0 < m) {values : List α} {r : Ring α}
    (holds : Holds m values r) (value : α) : Holds m (values ++ [value]) (r.push value) := by
  obtain ⟨max_size, size, length, cursor, content⟩ := holds
  have pushed : (values ++ [value]).length = values.length + 1 := by simp
  by_cases full : values.length < m
  · have grown : r.push value = { r with slots := r.slots ++ [value], size := r.size + 1 } := by
      rw [Ring.push, if_pos (by omega)]
    rw [if_pos full] at cursor
    rw [cursor, Nat.sub_self, List.rotate_zero, recent_of_le (by omega)] at content
    refine ⟨by rw [grown, max_size], ?_, ?_, ?_, ?_⟩
    · rw [grown, pushed]
      dsimp only
      omega
    · rw [grown, List.length_append, List.length_singleton, length]
    · rw [grown, pushed, cursor]
      split_ifs with more
      · rfl
      · rw [show values.length + 1 = m by omega, Nat.mod_self]
    · rw [grown]
      dsimp only
      rw [cursor, Nat.sub_self, List.rotate_zero, content, recent_of_le (by omega)]
  · have overwritten : r.push value = { r with
        slots := r.slots.set (r.cursor - 1) value
        cursor := r.cursor % r.max_size + 1 } := by
      rw [Ring.push, if_neg (by omega)]
    rw [if_neg full] at cursor
    have slot : r.cursor - 1 = values.length % m := by omega
    have bound : values.length % m < m := Nat.mod_lt _ positive
    rw [slot] at content
    refine ⟨by rw [overwritten, max_size], ?_, ?_, ?_, ?_⟩
    · rw [overwritten, pushed, size]
      omega
    · rw [overwritten, List.length_set, length]
    · rw [overwritten, pushed, if_neg (by omega), max_size, cursor, Nat.mod_add_mod]
    · rw [overwritten]
      dsimp only
      have full' : (r.slots.set (values.length % m) value).length = m := by
        rw [List.length_set, length, size]
        omega
      rw [max_size, cursor, Nat.add_sub_cancel, Nat.add_sub_cancel, Nat.mod_add_mod,
        ← Nat.mod_add_mod, rotate_mod_of_length full', rotate_set (by rw [length, size]; omega), content,
        recent_append positive (by omega)]

/-- Every run of pushes. -/
theorem pushAll_holds {m : ℕ} (positive : 0 < m) (values : List α) :
    Holds m values (pushAll m values) := by
  induction values using List.reverseRecOn with
  | nil => exact ⟨rfl, by simp [pushAll, new], rfl, by simp [pushAll, new, positive],
    by simp [pushAll, new, recent]⟩
  | append_singleton values value ih =>
    rw [pushAll, List.foldl_append]
    exact ih.push positive value

/-- The slot the iterator reads at its `i`-th call holds the `i`-th value from the end. -/
theorem Holds.iterator_eq {m : ℕ} {values : List α} {r : Ring α} (holds : Holds m values r)
    {i : ℕ} (bound : i < r.size) : r.iterator (1 + i) = (recent m values).reverse[i]? := by
  have length := holds.length
  have slot : (((r.cursor : ℤ) - ((1 + i : ℕ) : ℤ) - 1) % (r.size : ℤ)).toNat =
      (r.size - 1 - i + (r.cursor - 1)) % r.size := by
    have positive : 1 ≤ r.cursor := by
      rw [holds.cursor]
      split_ifs <;> omega
    have shifted : (r.cursor : ℤ) - ((1 + i : ℕ) : ℤ) - 1 =
        ((r.size - 1 - i + (r.cursor - 1) : ℕ) : ℤ) - (r.size : ℤ) := by omega
    rw [shifted, Int.sub_emod_right]
    exact Int.toNat_natCast _
  rw [iterator, if_pos (by omega), slot, ← holds.content,
    List.getElem?_reverse (by rw [List.length_rotate]; omega), List.length_rotate, length,
    List.getElem?_rotate (by omega), length]

/-- The iterator goes through the values backwards in time, also after a wrap. -/
theorem Holds.yields {m : ℕ} {values : List α} {r : Ring α} (holds : Holds m values r) :
    r.yields = (recent m values).reverse := by
  have length : (recent m values).reverse.length = r.size := by
    rw [List.length_reverse, length_recent, holds.size]
  rw [Ring.yields, List.range'_eq_map_range, List.filterMap_map,
    ← filterMap_getElem?_range (recent m values).reverse, length]
  refine List.filterMap_congr fun i member => ?_
  exact holds.iterator_eq (List.mem_range.mp member)

end Ring

end OmniaJit.Std
