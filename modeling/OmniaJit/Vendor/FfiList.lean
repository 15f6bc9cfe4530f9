import OmniaJit.Data.DoublyLinked

/-! # `list`

A list without duplicates: doubly linked C structures outside of the Lua heap, and two tables between values and
nodes. Reading or writing through a null pointer or a pointer to freed memory is not defined; in the model such an
operation gives nothing. Values are those that can be table keys and count as true.
-/

namespace OmniaJit.Vendor.FfiList

open OmniaJit.Data

/-- What the functions work on, without the last key. -/
structure State (V : Type) where
  heap : Heap ℕ := ∅
  head : Option ℕ := none
  tail : Option ℕ := none
  vnmap : AList fun _ : V => ℕ := ∅
  nvmap : AList fun _ : ℕ => V := ∅
  count : ℤ := 0

/-- How `calloc` and `_nextKey` choose: an address that is not in use, and a key that is not. -/
structure Fresh (V : Type) where
  calloc : Heap ℕ → ℕ
  unused : ∀ heap, calloc heap ∉ heap
  nextKey : AList (fun _ : ℕ => V) → ℕ
  free : ∀ nvmap, nextKey nvmap ∉ nvmap

variable {V : Type} [DecidableEq V]

/-- `_add_maps` -/
def add_maps (s : State V) (node key : ℕ) (value : V) : State V × Option V :=
  ({ s with
      vnmap := s.vnmap.insert value node
      nvmap := s.nvmap.insert key value
      count := s.count + 1 }, some value)

/-- `_remove_node` -/
def remove_node (s : State V) (node : Option ℕ) : Option (State V × Option V) :=
  match node with
  | none => some (s, none)
  | some node => do
    let n ← s.heap.lookup node
    let value ← s.nvmap.lookup n.content
    let head := if s.head = some node then n.next else s.head
    let tail := if s.tail = some node then n.prev else s.tail
    let heap ← s.heap.setNext n.prev n.next
    let n ← heap.lookup node
    let heap ← heap.setPrev n.next n.prev
    let n ← heap.lookup node
    let nvmap := s.nvmap.erase n.content
    let vnmap := s.vnmap.erase value
    let heap ← heap.free node
    some ({ heap, head, tail, vnmap, nvmap, count := s.count - 1 }, some value)

/-- The value of the node a pointer leads to. -/
def valueAt (s : State V) (p : Option ℕ) : Option (Option V) := do
  let n ← s.heap.lookup (← p)
  some (s.nvmap.lookup n.content)

def first (s : State V) : Option (Option V) := if s.count ≤ 0 then some none else valueAt s s.head

def last (s : State V) : Option (Option V) := if s.count ≤ 0 then some none else valueAt s s.tail

section Changes

variable (a : Fresh V)

def pushf (s : State V) (value : Option V) : Option (State V × Option V) :=
  match value with
  | none => some (s, none)
  | some value => do
    let (s, _) ← remove_node s (s.vnmap.lookup value)
    let node := a.calloc s.heap
    let key := a.nextKey s.nvmap
    let heap : Heap ℕ := s.heap.insert node { next := s.head, content := key }
    let heap ← heap.setPrev s.head (some node)
    let tail := if s.head = none then some node else s.tail
    some (add_maps { s with heap, head := some node, tail } node key value)

def pushl (s : State V) (value : Option V) : Option (State V × Option V) :=
  match value with
  | none => some (s, none)
  | some value => do
    let (s, _) ← remove_node s (s.vnmap.lookup value)
    let node := a.calloc s.heap
    let key := a.nextKey s.nvmap
    let heap : Heap ℕ := s.heap.insert node { prev := s.tail, content := key }
    let heap ← heap.setNext s.tail (some node)
    let head := if s.tail = none then some node else s.head
    some (add_maps { s with heap, head, tail := some node } node key value)

/-- Neither end of the list is moved. -/
def insertf (s : State V) (value beforeValue : Option V) : Option (State V × Option V) :=
  match value, beforeValue with
  | some value, some beforeValue => do
    let (s, _) ← remove_node s (s.vnmap.lookup value)
    match s.vnmap.lookup beforeValue with
    | none => some (s, none)
    | some bnode => do
      let vnode := a.calloc s.heap
      let key := a.nextKey s.nvmap
      let b ← s.heap.lookup bnode
      let heap : Heap ℕ := s.heap.insert vnode { prev := b.prev, next := some bnode, content := key }
      let heap ← heap.setNext b.prev (some vnode)
      let heap ← heap.setPrev (some bnode) (some vnode)
      some (add_maps { s with heap } vnode key value)
  | _, _ => some (s, none)

def insertl (s : State V) (value afterValue : Option V) : Option (State V × Option V) :=
  match value, afterValue with
  | some value, some afterValue => do
    let (s, _) ← remove_node s (s.vnmap.lookup value)
    match s.vnmap.lookup afterValue with
    | none => some (s, none)
    | some anode => do
      let vnode := a.calloc s.heap
      let key := a.nextKey s.nvmap
      let n ← s.heap.lookup anode
      let heap : Heap ℕ := s.heap.insert vnode { prev := some anode, next := n.next, content := key }
      let heap ← heap.setPrev n.next (some vnode)
      let heap ← heap.setNext (some anode) (some vnode)
      some (add_maps { s with heap } vnode key value)
  | _, _ => some (s, none)

end Changes

def popf (s : State V) : Option (State V × Option V) :=
  if s.count ≤ 0 then some (s, none) else remove_node s s.head

def popl (s : State V) : Option (State V × Option V) :=
  if s.count ≤ 0 then some (s, none) else remove_node s s.tail

def remove (s : State V) (value : Option V) : Option (State V × Option V) :=
  match value with
  | none => some (s, none)
  | some value => remove_node s (s.vnmap.lookup value)

def next (s : State V) (value : Option V) : Option (Option V) :=
  match value.bind s.vnmap.lookup with
  | none => some none
  | some node => do
    let n ← s.heap.lookup node
    if n.next = none then some none else valueAt s n.next

def prev (s : State V) (value : Option V) : Option (Option V) :=
  match value.bind s.vnmap.lookup with
  | none => some none
  | some node => do
    let n ← s.heap.lookup node
    if n.prev = none then some none else valueAt s n.prev

/-- The loop of `range`, which ends behind the last node or the last index. -/
def rangeLoop (s : State V) (start stop idx : ℤ) (node : Option ℕ) (range : List V) : Option (List V) := do
  let n ← s.heap.lookup (← node)
  let range := if start ≤ idx ∧ idx ≤ stop then range ++ (s.nvmap.lookup n.content).toList else range
  if n.next = none ∨ idx + 1 > stop then some range else rangeLoop s start stop (idx + 1) n.next range
termination_by (stop - idx).toNat

/-- `range(from, to)` -/
def range (s : State V) (start stop : Option ℤ) : Option (List V) :=
  let start := start.getD 1
  let stop := stop.getD s.count
  if s.count ≤ 0 ∨ start < 1 ∨ start > s.count ∨ start > stop then some []
  else rangeLoop s start (min s.count stop) 1 s.head []

/-- What the function that `walk` returns keeps between its calls. -/
structure Walk where
  idx : ℕ := 1
  node : Option ℕ

def walk (s : State V) : Walk := { node := if s.count ≤ 0 then none else s.head }

/-- A call of that function. The node it keeps is read again, whatever has been called since. -/
def Walk.next (s : State V) (w : Walk) : Option (Walk × Option (ℕ × Option V)) :=
  match w.node with
  | none => some (w, none)
  | some node => do
    let n ← s.heap.lookup node
    some ({ idx := w.idx + 1, node := n.next }, some (w.idx, s.nvmap.lookup n.content))

/-- `clear`, which frees the nodes the table knows. -/
def clear (s : State V) : Option (State V) :=
  if s.count ≤ 0 then some s
  else do
    let heap ← s.vnmap.entries.foldlM (fun heap entry => heap.free entry.2) s.heap
    some { heap }

/-- The calls that can be made. -/
inductive Op (V : Type) where
  | first
  | last
  | pushf (value : Option V)
  | pushl (value : Option V)
  | insertf (value beforeValue : Option V)
  | insertl (value afterValue : Option V)
  | popf
  | popl
  | remove (value : Option V)
  | next (value : Option V)
  | prev (value : Option V)
  | range (start stop : Option ℤ)
  | clear
  | count

/-- What they return. -/
inductive Out (V : Type) where
  | value (v : Option V)
  | values (l : List V)
  | number (n : ℤ)
deriving DecidableEq

def step (a : Fresh V) (s : State V) : Op V → Option (State V × Out V)
  | .first => (FfiList.first s).map fun v => (s, .value v)
  | .last => (FfiList.last s).map fun v => (s, .value v)
  | .pushf value => (FfiList.pushf a s value).map fun (s, v) => (s, .value v)
  | .pushl value => (FfiList.pushl a s value).map fun (s, v) => (s, .value v)
  | .insertf value beforeValue => (FfiList.insertf a s value beforeValue).map fun (s, v) => (s, .value v)
  | .insertl value afterValue => (FfiList.insertl a s value afterValue).map fun (s, v) => (s, .value v)
  | .popf => (FfiList.popf s).map fun (s, v) => (s, .value v)
  | .popl => (FfiList.popl s).map fun (s, v) => (s, .value v)
  | .remove value => (FfiList.remove s value).map fun (s, v) => (s, .value v)
  | .next value => (FfiList.next s value).map fun v => (s, .value v)
  | .prev value => (FfiList.prev s value).map fun v => (s, .value v)
  | .range start stop => (FfiList.range s start stop).map fun l => (s, .values l)
  | .clear => (FfiList.clear s).map fun s => (s, .value none)
  | .count => some (s, .number s.count)

/-- A run: the calls, each with the choices made in it, and what they return. -/
def run (s : State V) : List (Fresh V × Op V) → Option (State V × List (Out V))
  | [] => some (s, [])
  | (a, op) :: calls => do
    let (s, out) ← step a s op
    let (s, outs) ← run s calls
    some (s, out :: outs)

end OmniaJit.Vendor.FfiList
