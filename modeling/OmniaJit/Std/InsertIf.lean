import OmniaJit.Data.Index
import OmniaJit.Lua.TableInsert

/-! # `table.insert_if`

A table as the fourth argument is inserted entry by entry, each one an index further; any other value
is inserted as it is. The index -1 stands for the end of the list in the second branch only. In the
first one it reaches `table.insert`, which takes it for an index below the list. The entries are read
one at a time, so that a list that is inserted into itself grows ahead of the loop that reads it.
-/

namespace OmniaJit.Std

open OmniaJit.Lua OmniaJit.Data

variable {α : Type*}

/-- What the fourth argument can be: a table other than the list, the list itself, or no table. -/
inductive Inserted (α : Type*) where
  | table (t : Table α)
  | list
  | value (v : α)

/-- `for n, i in ipairs(value) do local p = n - 1 table.insert(list, pos + p, i) end`, from `n` on and for
fewer than `fuel` entries. `source list` is the table `ipairs` reads the next entry from. -/
def insertEach (op : LengthOperator α) (source : Table α → Table α) (pos : ℤ) :
    ℕ → Table α → ℕ → Option (Table α)
  | 0, _, _ => none
  | fuel + 1, list, n =>
    match (source list).get n with
    | none => some list
    | some i => insertEach op source pos fuel (op.insert list (pos + (n - 1 : ℕ)) i) (n + 1)

/-- `insert_if(bool, list, pos, value)`, and the list after it, if the loop takes fewer steps than `fuel`. -/
def insert_if (op : LengthOperator α) (fuel : ℕ) (bool : Bool) (list : Table α) (pos : ℤ) (value : Inserted α) :
    Option (Table α) :=
  if bool then
    match value with
    | .table t => insertEach op (fun _ => t) pos fuel list 1
    | .list => insertEach op id pos fuel list 1
    | .value v => if pos = -1 then some (op.append list v) else some (op.insert list pos v)
  else some list

/-- The call returns, and leaves the list as `result`. -/
def Leaves (op : LengthOperator α) (bool : Bool) (list : Table α) (pos : ℤ) (value : Inserted α)
    (result : Table α) : Prop :=
  ∃ fuel, insert_if op fuel bool list pos value = some result

/-- The entries that are to be inserted, where those of the list are `l`. -/
def Inserted.Lists (l : List α) : Inserted α → List α → Prop
  | .table t, w => t.IsSequence w
  | .list, w => w = l
  | .value v, w => w = [v]

def Inserted.isTable : Inserted α → Bool
  | .table _ | .list => true
  | .value _ => false

/-- How many entries of `l` come before what is inserted at `pos`. -/
def before (l : List α) (pos : ℤ) : ℕ := if pos = -1 then l.length else (pos - 1).toNat

/-- `l` with `w` inserted at `pos`, if `bool`. -/
def splice (bool : Bool) (l : List α) (pos : ℤ) (w : List α) : List α :=
  if bool then l.take (before l pos) ++ w ++ l.drop (before l pos) else l

variable (op : LengthOperator α)

section

variable {source : Table α → Table α} {pos : ℤ} {list : Table α} {n : ℕ}

theorem insertEach_stop (fuel : ℕ) (last : (source list).get n = none) :
    insertEach op source pos (fuel + 1) list n = some list := by
  rw [insertEach, last]

theorem insertEach_step (fuel : ℕ) {i : α} (entry : (source list).get n = some i) :
    insertEach op source pos (fuel + 1) list n =
      insertEach op source pos fuel (op.insert list (pos + (n - 1 : ℕ)) i) (n + 1) := by
  rw [insertEach, entry]

/-- A loop that has ended does not end another way with more fuel. -/
theorem insertEach_mono {fuel fuel' : ℕ} (more : fuel ≤ fuel') {result : Table α}
    (ended : insertEach op source pos fuel list n = some result) :
    insertEach op source pos fuel' list n = some result := by
  induction fuel generalizing list n fuel' with
  | zero => exact absurd ended (Option.some_ne_none result).symm
  | succ fuel ih =>
    obtain ⟨fuel', rfl⟩ := Nat.exists_eq_add_of_lt more
    rcases entry : (source list).get n with _ | i
    · rw [insertEach_stop op _ entry] at ended ⊢
      exact ended
    · rw [insertEach_step op _ entry] at ended ⊢
      exact ih (by omega) ended

/-- Insertions at the indices from 0 on leave the index -1 as it is. -/
theorem insertEach_get_neg {fuel : ℕ} (above : 0 ≤ pos + (n - 1 : ℕ)) {result : Table α}
    (ended : insertEach op source pos fuel list n = some result) : result.get (-1) = list.get (-1) := by
  induction fuel generalizing list n with
  | zero => exact absurd ended (Option.some_ne_none result).symm
  | succ fuel ih =>
    rcases entry : (source list).get n with _ | i
    · rw [insertEach_stop op _ entry, Option.some.injEq] at ended
      rw [ended]
    · rw [insertEach_step op _ entry] at ended
      rw [ih (by omega) ended, op.get_insert, if_neg (by omega), if_neg (by omega)]

/-- With the index -1, the first entry stays below the list. -/
theorem insertEach_below {fuel : ℕ} {first : α} (entry : (source list).get 1 = some first) {result : Table α}
    (ended : insertEach op source (-1) fuel list 1 = some result) : result.get (-1) ≠ none := by
  obtain - | fuel := fuel
  · exact absurd ended (Option.some_ne_none result).symm
  · rw [insertEach_step op fuel (by exact_mod_cast entry)] at ended
    rw [insertEach_get_neg op (by decide) ended, op.get_insert, if_pos (by decide)]
    exact Option.some_ne_none first

end

/-- One insertion between two parts of a list. -/
theorem insert_between {list : Table α} {front back : List α} (sequence : list.IsSequence (front ++ back))
    {pos : ℤ} (place : pos = front.length + 1) (v : α) :
    (op.insert list pos v).IsSequence (front ++ v :: back) := by
  rw [← insertIdx_length_append, place]
  exact op.insert_isSequence sequence (by rw [List.length_append]; omega) v

/-- The loop over another table, from any state of it: the entries that are left go between the two parts
in their order. -/
theorem insertEach_between {t : Table α} {read rest : List α} (entries : t.IsSequence (read ++ rest))
    {list : Table α} {front back : List α} (sequence : list.IsSequence (front ++ back))
    {pos : ℤ} (place : pos + read.length = front.length + 1) :
    ∃ result, insertEach op (fun _ => t) pos (rest.length + 1) list (read.length + 1) = some result ∧
      result.IsSequence (front ++ rest ++ back) := by
  induction rest generalizing list front read with
  | nil =>
    have last : t.get (read.length + 1 : ℕ) = none := by
      push_cast
      rw [entries.get_succ, List.append_nil, List.getElem?_eq_none le_rfl]
    rw [List.append_nil]
    exact ⟨list, insertEach_stop op _ last, sequence⟩
  | cons i rest ih =>
    have entry : t.get (read.length + 1 : ℕ) = some i := by
      push_cast
      rw [entries.get_succ, List.getElem?_append_right le_rfl, Nat.sub_self, List.getElem?_cons_zero]
    have inserted := insert_between op sequence place i
    rw [List.append_cons] at inserted entries
    obtain ⟨result, ended, spliced⟩ := ih entries inserted (by
      rw [List.length_append, List.length_append, List.length_singleton]
      omega)
    rw [List.length_append, List.length_singleton] at ended
    refine ⟨result, ?_, ?_⟩
    · rw [List.length_cons, insertEach_step op _ entry, Nat.add_sub_cancel]
      exact ended
    · rwa [List.append_cons front i rest]

/-- The loop over the list itself, from any state of it where the list is long enough for one more entry:
the list has grown by one when the next entry is read. -/
theorem insertEach_itself (fuel : ℕ) {list : Table α} {l : List α} (sequence : list.IsSequence l) {n : ℕ}
    (started : 1 ≤ n) (unread : n ≤ l.length) {pos : ℤ} (inside : 1 ≤ pos) (place : pos + n ≤ l.length + 2) :
    insertEach op id pos fuel list n = none := by
  induction fuel generalizing list l n with
  | zero => rfl
  | succ fuel ih =>
    obtain ⟨i, entry⟩ := Option.ne_none_iff_exists'.mp
      ((sequence.get_ne_none_iff n).mpr ⟨by exact_mod_cast started, by exact_mod_cast unread⟩)
    have bound : (pos + n - 2).toNat ≤ l.length := by omega
    have inserted := op.insert_isSequence sequence bound i
    have grown : (l.insertIdx (pos + n - 2).toNat i).length = l.length + 1 :=
      List.length_insertIdx_of_le_length bound i
    rw [show ((pos + n - 2).toNat : ℤ) + 1 = pos + (n - 1 : ℕ) by omega] at inserted
    rw [insertEach_step op fuel entry]
    exact ih inserted (by omega) (by omega) (by omega)

variable {list : Table α} {l : List α} {pos : ℤ} {value : Inserted α} {w : List α} {bool : Bool}

theorem insert_if_mono {fuel fuel' : ℕ} (more : fuel ≤ fuel') {result : Table α}
    (ended : insert_if op fuel bool list pos value = some result) :
    insert_if op fuel' bool list pos value = some result := by
  cases bool with
  | false => exact ended
  | true =>
    cases value with
    | table t => exact insertEach_mono op more ended
    | list => exact insertEach_mono op more ended
    | value v => exact ended

/-- A call that returns leaves one list. -/
theorem Leaves.unique {result result' : Table α} (left : Leaves op bool list pos value result)
    (left' : Leaves op bool list pos value result') : result = result' := by
  obtain ⟨fuel, ended⟩ := left
  obtain ⟨fuel', ended'⟩ := left'
  have most := insert_if_mono op (le_max_left fuel fuel') ended
  have most' := insert_if_mono op (le_max_right fuel fuel') ended'
  exact Option.some.inj (most.symm.trans most')

/-- The index -1 with a table puts an entry below the list. -/
theorem Leaves.below (sequence : list.IsSequence l) (lists : value.Lists l w) (isTable : value.isTable)
    (nonempty : w ≠ []) {result : Table α} (left : Leaves op true list (-1) value result) :
    result.get (-1) ≠ none := by
  obtain ⟨fuel, ended⟩ := left
  obtain ⟨first, rest, rfl⟩ := List.exists_cons_of_ne_nil nonempty
  cases value with
  | table t => exact insertEach_below op (lists.get_succ 0) ended
  | list =>
    obtain rfl := lists
    exact insertEach_below op (sequence.get_succ 0) ended
  | value v => exact absurd isTable Bool.false_ne_true

/-- A list that is inserted into itself: the call does not return. -/
theorem not_leaves_itself (sequence : list.IsSequence l) (nonempty : l ≠ []) (inside : 1 ≤ pos)
    (place : pos ≤ l.length + 1) (result : Table α) : ¬ Leaves op true list pos .list result := by
  rintro ⟨fuel, ended⟩
  have endless := insertEach_itself op fuel sequence le_rfl (List.length_pos_of_ne_nil nonempty) inside
    (by omega)
  exact Option.some_ne_none result (ended.symm.trans endless)

/-- An empty list that is inserted into itself is left as it is. -/
theorem leaves_empty (sequence : list.IsSequence []) (pos : ℤ) : Leaves op true list pos .list list :=
  ⟨1, insertEach_stop op 0 (sequence.get_succ 0)⟩

/-- Another table, with an index into the list or with nothing in it. -/
theorem leaves_spliced {t : Table α} (sequence : list.IsSequence l) (entries : t.IsSequence w)
    (position : 1 ≤ pos ∧ pos ≤ l.length + 1 ∨ pos = -1) (spared : pos = -1 → w = []) :
    ∃ result, Leaves op true list pos (.table t) result ∧ result.IsSequence (splice true l pos w) := by
  have parts : list.IsSequence (l.take (before l pos) ++ l.drop (before l pos)) := by
    rwa [List.take_append_drop]
  rw [splice, if_pos rfl]
  rcases eq_or_ne pos (-1) with last | inside
  · obtain rfl := spared last
    have ended : insertEach op (fun _ => t) pos 1 list 1 = some list :=
      insertEach_stop op 0 (entries.get_succ 0)
    refine ⟨list, ⟨1, ended⟩, ?_⟩
    rwa [List.append_nil]
  · have unread : t.IsSequence ([] ++ w) := entries
    have place : pos + ([] : List α).length = (l.take (before l pos)).length + 1 := by
      rw [List.length_nil, List.length_take, before, if_neg inside]
      omega
    obtain ⟨result, ended, spliced⟩ := insertEach_between op unread parts place
    exact ⟨result, ⟨w.length + 1, ended⟩, spliced⟩

/-- A value that is no table. -/
theorem leaves_value (sequence : list.IsSequence l) (position : 1 ≤ pos ∧ pos ≤ l.length + 1 ∨ pos = -1)
    (v : α) :
    ∃ result, Leaves op true list pos (.value v) result ∧ result.IsSequence (splice true l pos [v]) := by
  rw [splice, if_pos rfl]
  rcases eq_or_ne pos (-1) with rfl | inside
  · refine ⟨op.append list v, ⟨0, rfl⟩, ?_⟩
    rw [before, if_pos rfl, List.take_length, List.drop_length, List.append_nil]
    exact op.append_isSequence sequence v
  · refine ⟨op.insert list pos v, ⟨0, by rw [insert_if, if_pos rfl]; exact if_neg inside⟩, ?_⟩
    rw [List.append_assoc]
    have parts : list.IsSequence (l.take (before l pos) ++ l.drop (before l pos)) := by
      rwa [List.take_append_drop]
    apply insert_between op parts
    rw [List.length_take, before, if_neg inside]
    omega

/-- What a call must not do, for a splice. -/
theorem Leaves.spared (sequence : list.IsSequence l) (position : 1 ≤ pos ∧ pos ≤ l.length + 1 ∨ pos = -1)
    (lists : value.Lists l w) {result : Table α} (left : Leaves op bool list pos value result)
    (spliced : result.IsSequence (splice bool l pos w)) :
    ¬ (bool = true ∧ w ≠ [] ∧ (value = .list ∨ value.isTable ∧ pos = -1)) := by
  rintro ⟨rfl, nonempty, failing⟩
  have inside : pos ≠ -1 ∨ ¬ value.isTable := by
    by_contra last
    rw [not_or, not_not, not_not] at last
    obtain ⟨rfl, isTable⟩ := last
    exact left.below op sequence lists isTable nonempty (spliced _)
  rcases failing with rfl | ⟨isTable, last⟩
  · obtain rfl := lists
    rcases position with position | last
    · exact not_leaves_itself op sequence nonempty position.1 position.2 result left
    · exact inside.elim (fun other => other last) (fun other => other rfl)
  · exact inside.elim (fun other => other last) (fun other => other isTable)

/-- A call that does none of it splices. -/
theorem leaves_splice (sequence : list.IsSequence l) (position : 1 ≤ pos ∧ pos ≤ l.length + 1 ∨ pos = -1)
    (lists : value.Lists l w)
    (spared : ¬ (bool = true ∧ w ≠ [] ∧ (value = .list ∨ value.isTable ∧ pos = -1))) :
    ∃ result, Leaves op bool list pos value result ∧ result.IsSequence (splice bool l pos w) := by
  cases bool with
  | false => exact ⟨list, ⟨0, rfl⟩, sequence⟩
  | true =>
    cases value with
    | table t =>
      apply leaves_spliced op sequence lists position
      intro last
      by_contra nonempty
      exact spared ⟨rfl, nonempty, .inr ⟨rfl, last⟩⟩
    | list =>
      obtain rfl : w = [] := by
        by_contra nonempty
        exact spared ⟨rfl, nonempty, .inl rfl⟩
      obtain rfl := lists
      refine ⟨list, leaves_empty op sequence pos, ?_⟩
      rwa [splice, if_pos rfl, List.take_nil, List.drop_nil]
    | value v =>
      obtain rfl := lists
      exact leaves_value op sequence position v

/-- A single value has the effect of a table with nothing else in it, unless it is to be appended. -/
theorem leaves_value_iff (sequence : list.IsSequence l) (position : 1 ≤ pos ∧ pos ≤ l.length + 1 ∨ pos = -1)
    (v : α) : (∀ result, Leaves op true list pos (.value v) result ↔
      Leaves op true list pos (.table (.ofList [v])) result) ↔ pos ≠ -1 := by
  obtain ⟨alone, left, spliced⟩ := leaves_value op sequence position v
  constructor
  · rintro same rfl
    have entry : (Inserted.table (.ofList [v])).Lists l [v] := Table.isSequence_ofList [v]
    exact ((same alone).mp left).below op sequence entry rfl (List.cons_ne_nil v []) (spliced _)
  · intro inside result
    obtain ⟨entry, left', spliced'⟩ := leaves_spliced op sequence (Table.isSequence_ofList [v]) position
      (fun last => absurd last inside)
    have same : alone = entry := spliced.eq_ofList.trans spliced'.eq_ofList.symm
    constructor
    · intro other
      rwa [other.unique op left, same]
    · intro other
      rwa [other.unique op left', ← same]

/-- `insert_if` returns and splices its list unless it inserts a list that is not empty into itself, or
appends the entries of a table to it; and a single value has the effect of a table with nothing else in it
unless it is to be appended. -/
theorem insert_if_splices_iff (sequence : list.IsSequence l)
    (position : 1 ≤ pos ∧ pos ≤ l.length + 1 ∨ pos = -1) (lists : value.Lists l w) (bool : Bool) :
    ((∃ result, Leaves op bool list pos value result ∧ result.IsSequence (splice bool l pos w)) ↔
      ¬ (bool = true ∧ w ≠ [] ∧ (value = .list ∨ value.isTable ∧ pos = -1))) ∧
    ∀ v, (∀ result, Leaves op true list pos (.value v) result ↔
        Leaves op true list pos (.table (.ofList [v])) result) ↔ pos ≠ -1 := by
  refine ⟨⟨?_, leaves_splice op sequence position lists⟩, leaves_value_iff op sequence position⟩
  rintro ⟨result, left, spliced⟩
  exact left.spared op sequence position lists spliced

/-- A table with one entry, in the middle of a list. -/
theorem insert_if_splices_middle :
    ∃ result, Leaves .first true (.ofList [1, 2]) 2 (.table (.ofList [7])) result ∧
      result.IsSequence [1, 7, 2] :=
  have entry : (Inserted.table (.ofList [7])).Lists [1, 2] [7] := Table.isSequence_ofList [7]
  have position : (1 : ℤ) ≤ 2 ∧ (2 : ℤ) ≤ [1, 2].length + 1 ∨ (2 : ℤ) = -1 := .inl (by decide)
  have spared : ¬ (true = true ∧ [7] ≠ [] ∧ (Inserted.table (.ofList [7]) = .list ∨
      (Inserted.table (Table.ofList [7])).isTable ∧ (2 : ℤ) = -1)) := by
    simp
  (insert_if_splices_iff .first (Table.isSequence_ofList [1, 2]) position entry true).1.mpr spared

/-- The same entry appended: it is at the index -1, and the entry of the list at the index 2. -/
theorem insert_if_below :
    (Inserted.table (.ofList [7])).Lists [1] [7] ∧
    ¬ ∃ result, Leaves .first true (.ofList [1]) (-1) (.table (.ofList [7])) result ∧
      result.IsSequence (splice true [1] (-1) [7]) := by
  have entry : (Inserted.table (.ofList [7])).Lists [1] [7] := Table.isSequence_ofList [7]
  constructor
  · exact entry
  · rintro ⟨result, left, spliced⟩
    apply left.below .first (Table.isSequence_ofList [1]) entry rfl (List.cons_ne_nil 7 [])
    exact spliced _

end OmniaJit.Std
