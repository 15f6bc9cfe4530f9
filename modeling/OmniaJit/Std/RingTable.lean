import OmniaJit.Lua.TableInsert
import OmniaJit.Std.Ring

/-! # The ring buffer as a table

The ring of `std.lua` is a table: the three fields, and the values at integer indices. `table.insert`
grows it, an assignment at the cursor overwrites it, and the iterator is a closure that counts its
calls. Each push of a table is a push of the circular list the table represents.
-/

namespace OmniaJit.Std

open OmniaJit.Lua

/-- `hist`: the fields of the ring, and the table its values are in. -/
structure RingTable (α : Type*) where
  max_size : ℕ
  size : ℕ
  cursor : ℕ
  values : Table α

namespace RingTable

variable {α : Type*} (op : LengthOperator α)

/-- `ring.new(max_size)` -/
def new (max_size : ℕ) : RingTable α where
  max_size := max_size
  size := 0
  cursor := 1
  values := .empty

/-- `ring:push(value)` of a value that is not nil. -/
def push (self : RingTable α) (value : α) : RingTable α :=
  if self.size < self.max_size then
    { self with values := op.append self.values value, size := self.size + 1 }
  else
    { self with
      values := self.values.set self.cursor (some value)
      cursor := self.cursor % self.max_size + 1 }

/-- The ring after pushing the values in their order. -/
def pushAll (max_size : ℕ) (values : List α) : RingTable α := values.foldl (push op) (new max_size)

/-- One call of the function that `ring:iterator()` returns, with its `i` before and after the call. -/
def next (self : RingTable α) (i : ℕ) : Option α × ℕ :=
  let i := i + 1
  (if i ≤ self.size then self.values.get (((self.cursor : ℤ) - i - 1) % self.size + 1) else none, i)

/-- The results of the next `calls` calls. -/
def iterate (self : RingTable α) (i : ℕ) : ℕ → List (Option α)
  | 0 => []
  | calls + 1 => (self.next i).1 :: self.iterate (self.next i).2 calls

/-- The table holds the slots of the circular list, and the fields are the same. -/
structure Represents (r : RingTable α) (ring : Ring α) : Prop where
  max_size : r.max_size = ring.max_size
  size : r.size = ring.size
  cursor : r.cursor = ring.cursor
  slots : r.values.IsSequence ring.slots

theorem represents_new (m : ℕ) : (new m : RingTable α).Represents (.new m) where
  max_size := rfl
  size := rfl
  cursor := rfl
  slots := Table.isSequence_empty

end RingTable

/-- The cursor is a slot number. -/
theorem Ring.Holds.cursor_bounds {α : Type*} {m : ℕ} (positive : 0 < m) {values : List α} {ring : Ring α}
    (holds : ring.Holds m values) : 1 ≤ ring.cursor ∧ ring.cursor ≤ m := by
  rw [holds.cursor]
  split_ifs
  · exact ⟨le_rfl, positive⟩
  · exact ⟨Nat.le_add_left .., Nat.mod_lt _ positive⟩

namespace RingTable

variable {α : Type*} (op : LengthOperator α)

/-- The step: pushing onto the table is pushing onto the list. -/
theorem Represents.push {m : ℕ} (positive : 0 < m) {values : List α} {r : RingTable α} {ring : Ring α}
    (represents : r.Represents ring) (holds : ring.Holds m values) (value : α) :
    (r.push op value).Represents (ring.push value) := by
  obtain ⟨max_size, size, cursor, slots⟩ := represents
  rw [RingTable.push, Ring.push, size, max_size]
  split_ifs with room
  · constructor
    · rfl
    · rfl
    · exact cursor
    · exact op.append_isSequence slots value
  · have bounds := holds.cursor_bounds positive
    have full : ring.size = m := by
      have := holds.size
      have := holds.max_size
      omega
    constructor
    · rfl
    · rfl
    · simp only [cursor]
    · have slot : ring.cursor - 1 < ring.slots.length := by
        rw [holds.length]
        omega
      have set := slots.set_lt slot value
      rwa [show ((ring.cursor - 1 : ℕ) : ℤ) + 1 = r.cursor by omega] at set

/-- Every run of pushes. -/
theorem represents_pushAll {m : ℕ} (positive : 0 < m) (values : List α) :
    (pushAll op m values).Represents (.pushAll m values) := by
  induction values using List.reverseRecOn with
  | nil => exact represents_new m
  | append_singleton values value ih =>
    rw [pushAll, Ring.pushAll, List.foldl_append, List.foldl_append]
    exact ih.push op positive (Ring.pushAll_holds positive values) value

/-- Call `i + 1` reads the `i`-th newest value, and nothing once all have been read. -/
theorem Represents.next_eq {m : ℕ} {values : List α} {r : RingTable α} {ring : Ring α}
    (represents : r.Represents ring) (holds : ring.Holds m values) (i : ℕ) :
    r.next i = ((values.reverse.take m)[i]?, i + 1) := by
  obtain ⟨-, size, cursor, slots⟩ := represents
  have newest : (Ring.recent m values).reverse = values.reverse.take m := List.take_reverse.symm
  rw [next, ← newest]
  congr 1
  rcases Nat.lt_or_ge i r.size with inside | beyond
  · have slot : 0 ≤ ((r.cursor : ℤ) - (i + 1 : ℕ) - 1) % r.size := Int.emod_nonneg _ (by omega)
    have yields := holds.iterator_eq (i := i) (by omega)
    rw [Ring.iterator, if_pos (by omega), ← size, ← cursor, Nat.add_comm 1 i] at yields
    rw [if_pos (by omega), ← yields, slots, if_pos (by omega), Int.add_sub_cancel]
  · have length := Ring.length_recent m values
    have size' := holds.size
    rw [if_neg (by omega), List.getElem?_eq_none (by rw [List.length_reverse]; omega)]

theorem Represents.iterate_eq {m : ℕ} {values : List α} {r : RingTable α} {ring : Ring α}
    (represents : r.Represents ring) (holds : ring.Holds m values) (i calls : ℕ) :
    r.iterate i calls = (List.range' i calls).map fun call => (values.reverse.take m)[call]? := by
  induction calls generalizing i with
  | zero => rfl
  | succ calls ih => rw [iterate, represents.next_eq holds, ih, List.range'_succ, List.map_cons]

/-- After any pushes, the fields and the slots are as they should be, and the iterator goes from the
newest value to the oldest one kept and then stays at nil. -/
theorem newest_first {m : ℕ} (positive : 1 ≤ m) (values : List α) :
    (pushAll op m values).size = min values.length m ∧
    (∀ k, (pushAll op m values).values.get k ≠ none ↔ 1 ≤ k ∧ k ≤ (pushAll op m values).size) ∧
    (1 ≤ (pushAll op m values).cursor ∧ (pushAll op m values).cursor ≤ m) ∧
    (values.length ≤ m → (pushAll op m values).cursor = 1) ∧
    (values.reverse.take m).length = min values.length m ∧
    ∀ calls, (pushAll op m values).iterate 0 calls =
      (List.range calls).map fun call => (values.reverse.take m)[call]? := by
  have represents := represents_pushAll op positive values
  have holds := Ring.pushAll_holds positive values
  refine ⟨?size, ?slots, ?cursor, ?unwrapped, ?count, ?newest⟩
  case size => rw [represents.size, holds.size]
  case slots =>
    intro k
    rw [represents.slots.get_ne_none_iff, holds.length, represents.size]
  case cursor =>
    rw [represents.cursor]
    exact holds.cursor_bounds positive
  case unwrapped =>
    intro few
    rw [represents.cursor, holds.cursor]
    split_ifs with room
    · rfl
    · rw [show values.length = m by omega, Nat.mod_self]
  case count => rw [List.length_take, List.length_reverse, Nat.min_comm]
  case newest =>
    intro calls
    rw [represents.iterate_eq holds, List.range_eq_range']

/-- Four values on a ring of three: the first one is gone. -/
theorem newest_first_wrapped :
    (pushAll .first 3 [10, 20, 30, 40]).iterate 0 5 = [some 40, some 30, some 20, none, none] :=
  (newest_first .first (by decide) [10, 20, 30, 40]).2.2.2.2.2 5

end RingTable

end OmniaJit.Std
