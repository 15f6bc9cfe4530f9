import OmniaJit.Data.Rearrangement
import OmniaJit.Lua.TableInsert
import OmniaJit.Machine.Program

/-! # `table.sort`

The quicksort of the table library. The order function may do and raise what it likes, except that it leaves the
table alone; it need not be an order. The loops are bounded and so is the depth of the C stack, and reaching a
bound is an outcome of its own.
-/

namespace OmniaJit.Lua.LibTable

open OmniaJit.Machine

variable {α σ ε : Type}

/-- The order function, or the operator `<`: an answer or an error, and a change to everything but the table. -/
abbrev OrderFunction (α σ ε : Type) := Option α → Option α → σ → Except ε Bool × σ

/-- How a sort fails. -/
inductive SortError (ε : Type) where
  /-- The order function raises an error. -/
  | raised (e : ε)
  /-- "invalid order function for sorting" -/
  | invalidOrder
  /-- The C stack is used up. -/
  | stack
  /-- A loop does not end. -/
  | endless

structure SortState (α σ : Type) where
  t : Table α
  rest : σ

abbrev SortM (α σ ε : Type) := Program (SortError ε) (SortState α σ)

def rawgeti (i : ℤ) : SortM α σ ε (Option α) := fun s => .ok (s.t.get i) s

/-- `set2`, with the value on the top of the stack and the one below it. -/
def set2 (i j : ℤ) (x y : Option α) : SortM α σ ε Unit :=
  fun s => .ok () { s with t := (s.t.set i x).set j y }

section Quicksort

variable (lt : OrderFunction α σ ε)

def sort_comp (x y : Option α) : SortM α σ ε Bool := fun s =>
  match lt x y s.rest with
  | (.ok answer, rest) => .ok answer { s with rest }
  | (.error e, rest) => .error (.raised e) { s with rest }

/-- Swap `a[i]` and `a[j]` if `a[j] < a[i]`, and say so. -/
def sortPair (i j : ℤ) : SortM α σ ε Bool := do
  let x ← rawgeti i
  let y ← rawgeti j
  if ← sort_comp lt y x then do
    set2 i j y x
    pure true
  else pure false

/-- Put `a[i]` between the two others, which are in order. -/
def sortMiddle (l i u : ℤ) : SortM α σ ε Unit := do
  if ← sortPair lt l i then pure ()
  else do
    let _ ← sortPair lt i u
    pure ()

/-- repeat `++i` until `a[i] >= P` -/
def scanUp (u : ℤ) (P : Option α) : ℕ → ℤ → SortM α σ ε ℤ
  | 0, _ => throw .endless
  | k + 1, i => do
    let i := i + 1
    let x ← rawgeti i
    if ← sort_comp lt x P then
      if i ≥ u then throw .invalidOrder
      else scanUp u P k i
    else pure i

/-- repeat `--j` until `a[j] <= P` -/
def scanDown (l : ℤ) (P : Option α) : ℕ → ℤ → SortM α σ ε ℤ
  | 0, _ => throw .endless
  | k + 1, j => do
    let j := j - 1
    let x ← rawgeti j
    if ← sort_comp lt P x then
      if j ≤ l then throw .invalidOrder
      else scanDown l P k j
    else pure j

/-- invariant: `a[l..i] <= P <= a[j..u]` -/
def partition (l u : ℤ) (P : Option α) : ℕ → ℤ → ℤ → SortM α σ ε ℤ
  | 0, _, _ => throw .endless
  | k + 1, i, j => do
    let i ← scanUp lt u P (u - l + 1).toNat i
    let j ← scanDown lt l P (u - l + 1).toNat j
    if j < i then pure i
    else do
      let x ← rawgeti i
      let y ← rawgeti j
      set2 i j y x
      partition l u P k i j

/-- The loop of `auxsort`, which calls the function itself for the smaller half. -/
def auxsortLoop (auxsort : ℤ → ℤ → SortM α σ ε Unit) : ℕ → ℤ → ℤ → SortM α σ ε Unit
  | 0, _, _ => throw .endless
  | k + 1, l, u =>
    if l < u then do
      let _ ← sortPair lt l u
      if u - l = 1 then pure ()
      else do
        let i := (l + u) / 2
        sortMiddle lt l i u
        if u - l = 2 then pure ()
        else do
          let P ← rawgeti i
          let y ← rawgeti (u - 1)
          set2 i (u - 1) y P
          let i ← partition lt l u P (u - l + 1).toNat l (u - 1)
          let y ← rawgeti (u - 1)
          let x ← rawgeti i
          set2 (u - 1) i x y
          if i - l < u - i then do
            auxsort l (i - 1)
            auxsortLoop auxsort k (i + 1) u
          else do
            auxsort (i + 1) u
            auxsortLoop auxsort k l (i - 1)
    else pure ()

/-- The first argument is what is left of the C stack, in calls. -/
def auxsort : ℕ → ℤ → ℤ → SortM α σ ε Unit
  | 0, _, _ => throw .stack
  | depth + 1, l, u => auxsortLoop lt (auxsort depth) (u - l + 2).toNat l u

/-- `table.sort`, with the C stack it needs. -/
def sort (op : LengthOperator α) : SortM α σ ε Unit := do
  let s ← get
  let n := op.len s.t
  auxsort lt (n.log2 + 1) 1 n

end Quicksort

end OmniaJit.Lua.LibTable
