import Mathlib.Data.List.ReduceOption
import OmniaJit.Lua.LibString
import OmniaJit.Lua.Slots
import OmniaJit.Machine.Program

/-! # `table.filter`

The first loop puts holes into the table, the second one moves the entries that are left down over the
holes, and the third one clears what is behind them. The tables of strings are a store, so that the
table that is returned can be told from a copy.
-/

namespace OmniaJit.Std

open OmniaJit.Lua OmniaJit.Lua.LibString OmniaJit.Machine

/-- The tables of strings by their identity. -/
abbrev Tables := ℕ → Table Bytes

/-- An error of `string.find`. -/
inductive FindError where
  /-- bad argument #1 to 'find' (string expected, got nil) -/
  | argument
  | pattern (e : PatternError)
deriving DecidableEq

/-- `tbl[n] = v` -/
def assignEntry (tbl n : ℕ) (v : Option Bytes) : Program FindError Tables Unit :=
  modify fun tables => Function.update tables tbl ((tables tbl).set n v)

/-- `for n = n, n + k - 1 do if string.find(tbl[n], patt, 1, plain) then tbl[n] = nil end end` -/
def removeFound (tbl : ℕ) (patt : Bytes) (plain : Bool) (n : ℕ) : ℕ → Program FindError Tables Unit
  | 0 => pure ()
  | k + 1 => do
    match ((← get) tbl).get n with
    | none => throw .argument
    | some s =>
      match find s patt 1 plain with
      | .error e => throw (.pattern e)
      | .ok found => do
        if found.isSome then assignEntry tbl n none else pure ()
        removeFound tbl patt plain (n + 1) k

/-- `for n = n, n + k - 1 do if tbl[n] ~= nil then c = c + 1; tbl[c] = tbl[n] end end`, and `c` after it. -/
def moveDown {α : Type*} (t : Table α) (c n : ℕ) : ℕ → Table α × ℕ
  | 0 => (t, c)
  | k + 1 =>
    match t.get n with
    | none => moveDown t c (n + 1) k
    | some s => moveDown (t.set (c + 1) (some s)) (c + 1) (n + 1) k

/-- `t_filter(tbl, patt, plain)` -/
def t_filter (op : LengthOperator Bytes) (tbl : ℕ) (patt : Bytes) (plain : Bool) : Program FindError Tables ℕ := do
  let s := op.len ((← get) tbl)
  removeFound tbl patt plain 1 s
  modify fun tables =>
    let (t, c) := moveDown (tables tbl) 0 1 s
    Function.update tables tbl (t.fill (c + 1) (s - c) 0 fun _ => none)
  return tbl

/-- `string.find(s, patt, 1, plain)` raises no error. -/
def Searchable (patt : Bytes) (plain : Bool) (s : Bytes) : Prop := ∃ found, find s patt 1 plain = .ok found

/-- The pattern is found in `s`. -/
def isFound (patt : Bytes) (plain : Bool) (s : Bytes) : Bool :=
  match find s patt 1 plain with
  | .ok (some _) => true
  | _ => false

/-- The entries of a list after the first loop. -/
def punch (patt : Bytes) (plain : Bool) (l : List Bytes) : List (Option Bytes) :=
  l.map fun s => if isFound patt plain s then none else some s

/-- The elements in which the pattern is not found. -/
def kept (patt : Bytes) (plain : Bool) (l : List Bytes) : List Bytes := l.filter fun s => !isFound patt plain s

section Loops

/-- The entries that are left move down in their order. What is between them and the next entry to be
read, as many slots as there have been holes, does not matter any more. -/
theorem moveDown_slots {α : Type*} (t : Table α) (kept : List α) (between rest : List (Option α)) :
    ∃ between' : List (Option α), between'.length + rest.reduceOption.length = between.length + rest.length ∧
      moveDown (t.withSlots (kept.map some ++ between ++ rest)) kept.length (kept.length + between.length + 1)
          rest.length =
        (t.withSlots ((kept ++ rest.reduceOption).map some ++ between'), kept.length + rest.reduceOption.length) := by
  induction rest generalizing kept between with
  | nil =>
    refine ⟨between, rfl, ?_⟩
    simp [moveDown, List.reduceOption_nil]
  | cons slot rest ih =>
    have next : (t.withSlots (kept.map some ++ between ++ slot :: rest)).get
        ((kept.length + between.length + 1 : ℕ) : ℤ) = slot := by
      have here := t.get_withSlots_append (kept.map some ++ between) slot rest
      rwa [List.length_append, List.length_map] at here
    rw [List.length_cons, moveDown, next]
    cases slot with
    | none =>
      obtain ⟨between', count, moved⟩ := ih kept (between ++ [none])
      refine ⟨between', ?_, ?_⟩
      · rw [List.length_append, List.length_singleton] at count
        rw [List.reduceOption_cons_of_none]
        omega
      · rw [List.reduceOption_cons_of_none, ← moved]
        simp [Nat.add_assoc]
    | some s =>
      -- the slot behind the kept entries: one of the holes, or the one that is read
      obtain ⟨slot, between₁, taken⟩ : ∃ slot between₁, between ++ [some s] = slot :: between₁ :=
        List.exists_cons_of_ne_nil (by simp)
      have size : between₁.length = between.length := by simpa using (congrArg List.length taken).symm
      obtain ⟨between', count, moved⟩ := ih (kept ++ [s]) between₁
      refine ⟨between', ?_, ?_⟩
      · rw [List.reduceOption_cons_of_some, List.length_cons]
        omega
      · have written := t.set_withSlots_append (kept.map some) slot (between₁ ++ rest) (some s)
        rw [List.length_map] at written
        have before : kept.map some ++ between ++ some s :: rest = kept.map some ++ slot :: (between₁ ++ rest) := by
          rw [← List.cons_append, ← taken]
          simp
        simp only [before, written]
        have index : kept.length + between.length + 1 + 1 = (kept ++ [s]).length + between₁.length + 1 := by
          rw [List.length_append, List.length_singleton]
          omega
        have total : kept.length + (rest.reduceOption.length + 1) =
            (kept ++ [s]).length + rest.reduceOption.length := by
          rw [List.length_append, List.length_singleton]
          omega
        rw [List.reduceOption_cons_of_some, List.append_cons kept s, List.length_cons, index, total]
        simpa using moved

variable (tbl : ℕ) {patt : Bytes} {plain : Bool}

/-- The first loop, from any state of it. -/
theorem removeFound_slots (tables : Tables) (t : Table Bytes) (front : List (Option Bytes)) {rest : List Bytes}
    (searchable : ∀ s ∈ rest, Searchable patt plain s)
    (state : tables tbl = t.withSlots (front ++ rest.map some)) :
    (removeFound tbl patt plain (front.length + 1) rest.length).Ensures tables
      (fun _ after => after = Function.update tables tbl (t.withSlots (front ++ punch patt plain rest)))
      (fun _ _ => False) := by
  induction rest generalizing tables front with
  | nil =>
    rw [List.map_nil] at state
    exact (Function.update_eq_self_iff.mpr state.symm).symm
  | cons s rest ih =>
    have entry : (tables tbl).get ((front.length + 1 : ℕ) : ℤ) = some s := by
      rw [state]
      exact t.get_withSlots_append front (some s) (rest.map some)
    obtain ⟨found, searched⟩ := searchable s (List.mem_cons_self ..)
    have punched : punch patt plain (s :: rest) =
        (if found.isSome then none else some s) :: punch patt plain rest := by
      rw [punch, List.map_cons, isFound, searched]
      cases found <;> rfl
    -- the loop behind this entry, once its slot is what it should be
    have onward (now : Tables) (slot : Option Bytes)
        (next : now = Function.update tables tbl (t.withSlots (front ++ slot :: rest.map some))) :
        (removeFound tbl patt plain (front.length + 1 + 1) rest.length).Ensures now
          (fun _ after => after = Function.update tables tbl (t.withSlots (front ++ slot :: punch patt plain rest)))
          (fun _ _ => False) := by
      have later := @ih now (front ++ [slot]) (fun s member => searchable s (List.mem_cons_of_mem _ member))
        (by rw [next, Function.update_self, ← List.append_cons])
      rwa [List.length_append, List.length_singleton, ← List.append_cons, next, Function.update_idem, ← next] at later
    rw [List.length_cons, removeFound, Program.ensures_bind, Program.ensures_get, entry, punched]
    simp only [searched]
    rw [Program.ensures_ite]
    constructor
    · intro hit
      rw [if_pos hit, Program.ensures_bind, assignEntry, Program.ensures_modify]
      apply onward
      rw [state]
      exact congrArg _ (t.set_withSlots_append front (some s) (rest.map some) none)
    · intro miss
      rw [if_neg miss]
      apply onward
      exact (Function.update_eq_self_iff.mpr state.symm).symm

theorem reduceOption_punch (l : List Bytes) : (punch patt plain l).reduceOption = kept patt plain l := by
  induction l with
  | nil => rfl
  | cons s l ih =>
    rw [punch, List.map_cons, ← punch, kept, List.filter_cons, ← kept, ← ih]
    cases isFound patt plain s <;> rfl

theorem length_punch (l : List Bytes) : (punch patt plain l).length = l.length := List.length_map ..

/-- The table after all three loops: the elements in which the pattern is not found, and nothing else at
the indices from 1 on. -/
theorem ensures_t_filter (op : LengthOperator Bytes) {tables : Tables} {l : List Bytes}
    (lists : (tables tbl).Lists l) (searchable : ∀ s ∈ l, Searchable patt plain s) :
    (t_filter op tbl patt plain).Ensures tables
      (fun result after => result = tbl ∧
        after = Function.update tables tbl ((tables tbl).withSlots ((kept patt plain l).map some)))
      (fun _ _ => False) := by
  have removed := removeFound_slots tbl tables (tables tbl) [] searchable lists.eq_withSlots.symm
  obtain ⟨between, count, moved⟩ := moveDown_slots (tables tbl) [] [] (punch patt plain l)
  rw [reduceOption_punch] at moved count
  simp only [length_punch, List.map_nil, List.nil_append, List.length_nil, Nat.zero_add] at removed moved count
  rw [t_filter, Program.ensures_bind, Program.ensures_get, op.len_of_lists lists, Program.ensures_bind]
  apply removed.mono
  · rintro _ _ rfl
    rw [Program.ensures_bind, Program.ensures_modify, Program.ensures_pure]
    refine ⟨rfl, ?_⟩
    have cleared := (tables tbl).fill_withSlots_append ((kept patt plain l).map some) between
    rw [List.length_map, show between.length = l.length - (kept patt plain l).length by omega] at cleared
    rw [Function.update_self, moved]
    dsimp only
    rw [Function.update_idem, cleared]
  · exact fun _ _ impossible => impossible

/-- The table that was filtered lists the elements that are left. -/
theorem ensures_t_filter_again (op : LengthOperator Bytes) (tables : Tables) {l : List Bytes}
    (searchable : ∀ s ∈ l, Searchable patt plain s) :
    (t_filter op tbl patt plain).Ensures
      (Function.update tables tbl ((tables tbl).withSlots (l.map some)))
      (fun result after => result = tbl ∧
        after = Function.update tables tbl ((tables tbl).withSlots ((kept patt plain l).map some)))
      (fun _ _ => False) := by
  have lists : (Function.update tables tbl ((tables tbl).withSlots (l.map some)) tbl).Lists l := by
    rw [Function.update_self]
    exact (tables tbl).lists_withSlots l
  have filtered := ensures_t_filter tbl op lists searchable
  rwa [Function.update_self, Function.update_idem, Table.withSlots_withSlots] at filtered

end Loops

/-- A program returns this value and leaves this store. -/
def Returns {α : Type} (program : Program FindError Tables α) (before : Tables) (value : α) (after : Tables) : Prop :=
  program.Ensures before (fun result now => result = value ∧ now = after) (fun _ _ => False)

theorem kept_comm (patt patt' : Bytes) (plain plain' : Bool) (l : List Bytes) :
    kept patt plain (kept patt' plain' l) = kept patt' plain' (kept patt plain l) := by
  simp only [kept, List.filter_filter, Bool.and_comm]

theorem kept_self (patt : Bytes) (plain : Bool) (l : List Bytes) :
    kept patt plain (kept patt plain l) = kept patt plain l := by
  simp only [kept, List.filter_filter, Bool.and_self]

/-- Two calls, the second one for the table that the first one returns. -/
theorem t_filter_twice (op : LengthOperator Bytes) {tables : Tables} {tbl : ℕ} {l : List Bytes}
    (lists : (tables tbl).Lists l) {patt patt' : Bytes} {plain plain' : Bool}
    (searchable : ∀ s ∈ l, Searchable patt plain s) (searchable' : ∀ s ∈ l, Searchable patt' plain' s) :
    Returns (do let tbl ← t_filter op tbl patt plain; t_filter op tbl patt' plain') tables tbl
      (Function.update tables tbl ((tables tbl).withSlots ((kept patt' plain' (kept patt plain l)).map some))) := by
  rw [Returns, Program.ensures_bind]
  apply (ensures_t_filter tbl op lists searchable).mono
  · rintro _ _ ⟨rfl, rfl⟩
    apply ensures_t_filter_again
    exact fun s member => searchable' s (List.mem_of_mem_filter member)
  · exact fun _ _ impossible => impossible

/-- `t_filter` returns its table with the elements in which the pattern is not found, in their order and as
often as they were there, at the indices from 1 on, and with nothing behind them. What the table has at the
other indices stays, and so do the other tables. A second call changes nothing, and two calls for two
patterns have one effect in either order. -/
theorem t_filter_filters (op : LengthOperator Bytes) {tables : Tables} {tbl : ℕ} {l : List Bytes}
    (lists : (tables tbl).Lists l) {patt : Bytes} {plain : Bool} (searchable : ∀ s ∈ l, Searchable patt plain s) :
    ∃ after,
      Returns (t_filter op tbl patt plain) tables tbl after ∧
      (after tbl).Lists (l.filter fun s => !isFound patt plain s) ∧
      (∀ k ≤ 0, (after tbl).get k = (tables tbl).get k) ∧
      (∀ other ≠ tbl, after other = tables other) ∧
      Returns (do let tbl ← t_filter op tbl patt plain; t_filter op tbl patt plain) tables tbl after ∧
      ∀ (patt' : Bytes) (plain' : Bool), (∀ s ∈ l, Searchable patt' plain' s) →
        ∃ both,
          Returns (do let tbl ← t_filter op tbl patt plain; t_filter op tbl patt' plain') tables tbl both ∧
          Returns (do let tbl ← t_filter op tbl patt' plain'; t_filter op tbl patt plain) tables tbl both := by
  refine ⟨Function.update tables tbl ((tables tbl).withSlots ((kept patt plain l).map some)),
    ensures_t_filter tbl op lists searchable, ?listed, ?below, ?others, ?again, ?commute⟩
  case listed =>
    rw [Function.update_self]
    exact Table.lists_withSlots _ _
  case below =>
    intro k below
    rw [Function.update_self, Table.get_withSlots_below _ _ below]
  case others =>
    intro other different
    exact Function.update_of_ne different ..
  case again =>
    have twice := t_filter_twice op lists searchable searchable
    rwa [kept_self] at twice
  case commute =>
    intro patt' plain' searchable'
    have swapped := t_filter_twice op lists searchable' searchable
    rw [kept_comm] at swapped
    exact ⟨_, t_filter_twice op lists searchable searchable', swapped⟩

/-- A hole at the start, one in the middle and one at the end. -/
theorem t_filter_filters_plain : ∃ after,
    Returns (t_filter .first 0 (ascii "a") true)
      (fun _ => .ofList [ascii "a", ascii "b", ascii "ba", ascii "b", ascii "a"]) 0 after ∧
    (after 0).Lists [ascii "b", ascii "b"] := by
  have searchable : ∀ s ∈ [ascii "a", ascii "b", ascii "ba", ascii "b", ascii "a"], Searchable (ascii "a") true s :=
    fun s _ => ⟨_, rfl⟩
  let tables : Tables := fun _ => .ofList [ascii "a", ascii "b", ascii "ba", ascii "b", ascii "a"]
  have lists : (tables 0).Lists [ascii "a", ascii "b", ascii "ba", ascii "b", ascii "a"] :=
    (Table.isSequence_ofList _).lists
  obtain ⟨after, returned, listed, -⟩ := t_filter_filters .first lists searchable
  exact ⟨after, returned, listed⟩

end OmniaJit.Std
