import OmniaJit.Data.KeyedList
import OmniaJit.Vendor.FfiList

/-! # The nodes of `list`

What the structures hold when they stand for a list of values, and what each function does to them. A value can
be inserted in front of the first one or behind the last one as well, but the structures then hold it without
standing for a list: the two ends are not moved.
-/

namespace OmniaJit.Vendor.FfiList

open OmniaJit.Data

variable {V : Type} [DecidableEq V]

/-- A node: its address, its key and its value. -/
abbrev Entry (V : Type) := (ℕ × ℕ) × V

def cellsOf (es : List (Entry V)) : List (ℕ × ℕ) := es.map Prod.fst

def valuesOf (es : List (Entry V)) : List V := es.map Prod.snd

def vnPairs (es : List (Entry V)) : List (V × ℕ) := es.map fun e => (e.2, e.1.1)

def nvPairs (es : List (Entry V)) : List (ℕ × V) := es.map fun e => (e.1.2, e.2)

/-- The structures stand for the entries, and hold nothing else. -/
structure Holds (s : State V) (es : List (Entry V)) : Prop where
  linked : Linked s.heap none (cellsOf es) none
  live : ∀ p, p ∈ s.heap ↔ p ∈ addresses (cellsOf es)
  distinct : (addresses (cellsOf es)).Nodup
  keys : ((nvPairs es).map Prod.fst).Nodup
  values : ((vnPairs es).map Prod.fst).Nodup
  head : s.head = headOr (cellsOf es) none
  tail : s.tail = lastOr (cellsOf es) none
  vnmap : HoldsPairs s.vnmap (vnPairs es)
  nvmap : HoldsPairs s.nvmap (nvPairs es)
  count : s.count = es.length

theorem holds_new : Holds ({} : State V) [] where
  linked := trivial
  live p := by simp [addresses, cellsOf, ← AList.lookup_isSome, AList.lookup_empty]
  distinct := List.nodup_nil
  keys := List.nodup_nil
  values := List.nodup_nil
  head := rfl
  tail := rfl
  vnmap := holdsPairs_empty
  nvmap := holdsPairs_empty
  count := rfl

section Nodes

variable {s : State V} {front back : List (Entry V)} {e : Entry V}

omit [DecidableEq V] in
theorem vnPairs_values (es : List (Entry V)) : (vnPairs es).map Prod.fst = valuesOf es := List.map_map ..

/-- The node of an entry. -/
theorem Holds.node (holds : Holds s (front ++ e :: back)) : s.heap.lookup e.1.1 =
    some { prev := lastOr (cellsOf front) none, next := headOr (cellsOf back) none, content := e.1.2 } := by
  have linked := holds.linked
  rw [cellsOf, List.map_append, List.map_cons, linked_append] at linked
  exact linked.2.1

theorem Holds.vnode (holds : Holds s (front ++ e :: back)) : s.vnmap.lookup e.2 = some e.1.1 :=
  holds.vnmap.lookup (by simp [vnPairs])

theorem Holds.value (holds : Holds s (front ++ e :: back)) : s.nvmap.lookup e.1.2 = some e.2 :=
  holds.nvmap.lookup (by simp [nvPairs])

theorem Holds.remove_node (holds : Holds s (front ++ e :: back)) :
    ∃ s', remove_node s (some e.1.1) = some (s', some e.2) ∧ Holds s' (front ++ back) := by
  obtain ⟨⟨p, k⟩, value⟩ := e
  have node := holds.node
  have found := holds.value
  obtain ⟨linked, live, distinct, keys, values, head, tail, vnmap, nvmap, count⟩ := holds
  have cells : cellsOf (front ++ ((p, k), value) :: back) = cellsOf front ++ (p, k) :: cellsOf back :=
    List.map_append ..
  rw [cells] at linked live distinct head tail
  obtain ⟨before, -, behind⟩ := linked_append.mp linked
  rw [addresses, List.map_append, List.map_cons, List.nodup_middle, List.nodup_cons, List.mem_append,
    not_or] at distinct
  obtain ⟨⟨front_other, back_other⟩, distinct⟩ := distinct
  obtain ⟨h₁, h₂, next_set, prev_set, front_linked, back_linked, changed₁, changed₂⟩ :=
    before.splice behind distinct (headOr (cellsOf back) none) (lastOr (cellsOf front) none)
  have outside : p ∉ addresses (cellsOf front) ++ addresses (cellsOf back) :=
    fun member => (List.mem_append.mp member).elim front_other back_other
  have there : p ∈ h₂ := (changed₂.1 p).mpr (AList.lookup_isSome.mp (by rw [node]; rfl))
  dsimp only at node found
  have erased (cells : List (ℕ × ℕ)) (other : p ∉ addresses cells) (q : ℕ) (member : q ∈ addresses cells) :
      (h₂.erase p).lookup q = h₂.lookup q := AList.lookup_erase_ne fun same => other (same ▸ member)
  refine ⟨⟨h₂.erase p, if s.head = some p then headOr (cellsOf back) none else s.head,
    if s.tail = some p then lastOr (cellsOf front) none else s.tail, s.vnmap.erase value, s.nvmap.erase k,
    s.count - 1⟩, ?_, ?_⟩
  · rw [FfiList.remove_node]
    simp only [node, found, next_set, prev_set, changed₁.2 p front_other, changed₂.2 p outside, Heap.free,
      if_pos there, Option.bind_eq_bind, Option.bind_some]
  · have rest : cellsOf (front ++ back) = cellsOf front ++ cellsOf back := List.map_append ..
    have fewer : (front ++ back).Sublist (front ++ ((p, k), value) :: back) :=
      .append (.refl front) (List.sublist_cons_self ..)
    constructor
    · rw [rest]
      exact linked_append.mpr ⟨front_linked.frame (erased _ front_other), back_linked.frame (erased _ back_other)⟩
    · intro q
      rw [rest, AList.mem_erase, changed₂.1, live]
      simp only [addresses, List.map_append, List.map_cons, List.mem_append, List.mem_cons] at outside ⊢
      constructor
      · tauto
      · intro member
        exact ⟨fun same => outside (same ▸ member), by tauto⟩
    · rw [rest, addresses, List.map_append]
      exact distinct
    · exact keys.sublist ((fewer.map _).map _)
    · exact values.sublist ((fewer.map _).map _)
    · rw [rest, head, headOr_append, headOr_append]
      exact headOr_replace front_other _
    · rw [rest, tail, lastOr_append, lastOr_append]
      exact lastOr_replace back_other _
    · have pairs := vnmap
      simp only [vnPairs, List.map_append, List.map_cons] at pairs values ⊢
      refine pairs.erase ?_
      simpa only [List.map_append, List.map_cons] using values
    · have pairs := nvmap
      simp only [nvPairs, List.map_append, List.map_cons] at pairs keys ⊢
      refine pairs.erase ?_
      simpa only [List.map_append, List.map_cons] using keys
    · simp only [count, List.length_append, List.length_cons]
      omega

omit [DecidableEq V] in
/-- Where a value is. -/
theorem exists_entry {es : List (Entry V)} {value : V} (member : value ∈ valuesOf es) :
    ∃ front e back, es = front ++ e :: back ∧ e.2 = value := by
  obtain ⟨e, inside, same⟩ := List.mem_map.mp member
  obtain ⟨front, back, split⟩ := List.append_of_mem inside
  exact ⟨front, e, back, split, same⟩

omit [DecidableEq V] in
theorem valuesOf_middle : valuesOf (front ++ e :: back) = valuesOf front ++ e.2 :: valuesOf back := List.map_append ..

omit [DecidableEq V] in
theorem valuesOf_append : valuesOf (front ++ back) = valuesOf front ++ valuesOf back := List.map_append ..

omit [DecidableEq V] in
theorem other_values (distinct : (valuesOf (front ++ e :: back)).Nodup) : e.2 ∉ valuesOf front ++ valuesOf back := by
  rw [valuesOf_middle, List.nodup_middle] at distinct
  exact (List.nodup_cons.mp distinct).1

theorem erase_value (distinct : (valuesOf (front ++ e :: back)).Nodup) :
    (valuesOf (front ++ e :: back)).erase e.2 = valuesOf (front ++ back) := by
  have other := other_values distinct
  rw [valuesOf_middle, List.erase_append_right _ fun inside => other (List.mem_append_left _ inside),
    List.erase_cons_head, valuesOf_append]

theorem Holds.distinct_values {es : List (Entry V)} (holds : Holds s es) : (valuesOf es).Nodup :=
  vnPairs_values es ▸ holds.values

theorem Holds.no_node {es : List (Entry V)} (holds : Holds s es) {value : V} (absent : value ∉ valuesOf es) :
    s.vnmap.lookup value = none :=
  holds.vnmap.lookup_none (vnPairs_values es ▸ absent)

/-- What `remove` does, and every call that gives a value a new place does first. -/
theorem Holds.taken {es : List (Entry V)} (holds : Holds s es) (value : V) :
    ∃ s' es', FfiList.remove_node s (s.vnmap.lookup value) =
        some (s', if value ∈ valuesOf es then some value else none) ∧
      Holds s' es' ∧ valuesOf es' = (valuesOf es).erase value := by
  by_cases member : value ∈ valuesOf es
  · obtain ⟨front, e, back, rfl, rfl⟩ := exists_entry member
    obtain ⟨s', taken, rest⟩ := holds.remove_node
    refine ⟨s', front ++ back, ?_, rest, (erase_value holds.distinct_values).symm⟩
    rw [holds.vnode, taken, if_pos member]
  · refine ⟨s, es, ?_, holds, (List.erase_of_not_mem member).symm⟩
    rw [holds.no_node member, if_neg member]
    rfl

end Nodes

section Places

variable {s : State V} {front back : List (Entry V)}

/-- A heap with one more node, between the ones of the entries. -/
structure Placed (s : State V) (front back : List (Entry V)) (h : Heap ℕ) (p k : ℕ) : Prop where
  unused : p ∉ s.heap
  free : k ∉ s.nvmap
  before : Linked h none (cellsOf front) (some p)
  behind : Linked h (some p) (cellsOf back) none
  node : h.lookup p = some
    { prev := lastOr (cellsOf front) none, next := headOr (cellsOf back) none, content := k }
  live : ∀ q, q ∈ h ↔ q = p ∨ q ∈ s.heap

theorem Placed.holds {h : Heap ℕ} {p k : ℕ} {value : V} (placed : Placed s front back h p k)
    (holds : Holds s (front ++ back)) (new : value ∉ valuesOf (front ++ back)) {head tail : Option ℕ}
    (first : head = headOr (cellsOf front) (some p)) (last : tail = lastOr (cellsOf back) (some p)) :
    Holds (add_maps { s with heap := h, head, tail } p k value).1 (front ++ ((p, k), value) :: back) := by
  have cells : cellsOf (front ++ ((p, k), value) :: back) = cellsOf front ++ (p, k) :: cellsOf back :=
    List.map_append ..
  have old : cellsOf (front ++ back) = cellsOf front ++ cellsOf back := List.map_append ..
  have other : p ∉ addresses (cellsOf front ++ cellsOf back) := fun inside =>
    placed.unused ((holds.live p).mpr (old ▸ inside))
  have other_key : k ∉ (nvPairs (front ++ back)).map Prod.fst := fun inside => by
    obtain ⟨⟨_, v⟩, pair, rfl⟩ := List.mem_map.mp inside
    exact placed.free (AList.lookup_isSome.mp (by rw [holds.nvmap.lookup pair]; rfl))
  have distinct := holds.distinct
  have keys := holds.keys
  have values := holds.distinct_values
  constructor
  · rw [cells]
    exact linked_append.mpr ⟨placed.before, placed.node, placed.behind⟩
  · intro q
    have members := holds.live q
    rw [old] at members
    rw [cells, add_maps, placed.live, members]
    simp only [addresses, List.map_append, List.map_cons, List.mem_append, List.mem_cons]
    tauto
  · rw [old, addresses, List.map_append] at distinct
    rw [addresses, List.map_append] at other
    rw [cells, addresses, List.map_append, List.map_cons, List.nodup_middle, List.nodup_cons]
    exact ⟨other, distinct⟩
  · simp only [nvPairs, List.map_append, List.map_cons] at keys other_key ⊢
    rw [List.nodup_middle, List.nodup_cons]
    exact ⟨other_key, keys⟩
  · rw [vnPairs_values, valuesOf_middle, List.nodup_middle, List.nodup_cons, ← valuesOf_append]
    exact ⟨new, values⟩
  · rw [cells, headOr_append]
    exact first
  · rw [cells, lastOr_append]
    exact last
  · have pairs := holds.vnmap
    rw [← vnPairs_values] at new
    simp only [vnPairs, List.map_append, List.map_cons] at pairs new ⊢
    refine pairs.insert ?_ p
    simpa only [List.map_append] using new
  · have pairs := holds.nvmap
    simp only [nvPairs, List.map_append, List.map_cons] at pairs other_key ⊢
    refine pairs.insert ?_ value
    simpa only [List.map_append] using other_key
  · simp only [add_maps, holds.count, List.length_append, List.length_cons]
    omega

/-- The two ways in which a node is linked. -/
theorem Holds.place (holds : Holds s (front ++ back)) (a : Fresh V) :
    let heap : Heap ℕ := s.heap.insert (a.calloc s.heap)
      { prev := lastOr (cellsOf front) none, next := headOr (cellsOf back) none, content := a.nextKey s.nvmap }
    let node := some (a.calloc s.heap)
    (∃ h₁ h₂, heap.setNext (lastOr (cellsOf front) none) node = some h₁ ∧
      h₁.setPrev (headOr (cellsOf back) none) node = some h₂ ∧
        Placed s front back h₂ (a.calloc s.heap) (a.nextKey s.nvmap)) ∧
    ∃ h₁ h₂, heap.setPrev (headOr (cellsOf back) none) node = some h₁ ∧
      h₁.setNext (lastOr (cellsOf front) none) node = some h₂ ∧
        Placed s front back h₂ (a.calloc s.heap) (a.nextKey s.nvmap) := by
  intro heap node
  have linked := holds.linked
  have live := holds.live
  have distinct := holds.distinct
  have unused := a.unused s.heap
  rw [cellsOf, List.map_append] at linked live distinct
  change Linked s.heap none (cellsOf front ++ cellsOf back) none at linked
  change ∀ p, p ∈ s.heap ↔ p ∈ addresses (cellsOf front ++ cellsOf back) at live
  change (addresses (cellsOf front ++ cellsOf back)).Nodup at distinct
  rw [addresses, List.map_append] at distinct
  have same (p : ℕ) (member : p ∈ addresses (cellsOf front ++ cellsOf back)) : heap.lookup p = s.heap.lookup p :=
    AList.lookup_insert_ne fun same => unused ((live _).mpr (same ▸ member))
  obtain ⟨before, behind⟩ := linked_append.mp (linked.frame same)
  have outside : a.calloc s.heap ∉ addresses (cellsOf front) ++ addresses (cellsOf back) := fun inside =>
    unused ((live _).mpr (by rw [addresses, List.map_append]; exact inside))
  have placed (h : Heap ℕ) (ps : List ℕ)
      (same : ∀ p ∈ ps, p ∈ addresses (cellsOf front) ++ addresses (cellsOf back))
      (changed : ChangedAt heap h ps) (front_linked : Linked h none (cellsOf front) node)
      (back_linked : Linked h node (cellsOf back) none) :
      Placed s front back h (a.calloc s.heap) (a.nextKey s.nvmap) := by
    refine ⟨unused, a.free _, front_linked, back_linked, ?_, fun q => ?_⟩
    · rw [changed.2 _ fun inside => outside (same _ inside)]
      exact AList.lookup_insert s.heap
    · rw [changed.1, AList.mem_insert]
  constructor
  · obtain ⟨h₁, h₂, next_set, prev_set, front_linked, back_linked, -, changed⟩ :=
      before.splice behind distinct node node
    exact ⟨h₁, h₂, next_set, prev_set, placed h₂ _ (fun _ member => member) changed front_linked back_linked⟩
  · obtain ⟨h₁, h₂, prev_set, next_set, front_linked, back_linked, changed⟩ :=
      before.splice' behind distinct node node
    refine ⟨h₁, h₂, prev_set, next_set, placed h₂ _ (fun p inside => ?_) changed front_linked back_linked⟩
    exact List.mem_append.mpr (List.mem_append.mp inside).symm

end Places

section Specifications

variable {s : State V} {es front back : List (Entry V)} {e : Entry V}

theorem Holds.pushf (holds : Holds s es) (a : Fresh V) (value : V) :
    ∃ s' es', FfiList.pushf a s (some value) = some (s', some value) ∧ Holds s' es' ∧
      valuesOf es' = value :: (valuesOf es).erase value := by
  obtain ⟨s₀, es₀, taken, rest, values⟩ := holds.taken value
  obtain ⟨⟨h₁, h₂, next_set, prev_set, placed⟩, -⟩ := (show Holds s₀ ([] ++ es₀) from rest).place a
  cases next_set
  have new : value ∉ valuesOf es₀ := values ▸ holds.distinct_values.not_mem_erase
  have linked : Heap.setPrev (s₀.heap.insert (a.calloc s₀.heap) { next := s₀.head, content := a.nextKey s₀.nvmap })
      s₀.head (some (a.calloc s₀.heap)) = some h₂ := by
    rw [rest.head]
    exact prev_set
  have tail : (if s₀.head = none then some (a.calloc s₀.heap) else s₀.tail) =
      lastOr (cellsOf es₀) (some (a.calloc s₀.heap)) := by
    rw [lastOr_eq_ite, ← rest.head, ← rest.tail]
  refine ⟨_, ((a.calloc s₀.heap, a.nextKey s₀.nvmap), value) :: es₀, ?_, placed.holds rest new rfl tail, ?_⟩
  · simp only [FfiList.pushf, taken, linked, Option.bind_eq_bind, Option.bind_some]
    rfl
  · rw [← values]
    rfl

theorem Holds.pushl (holds : Holds s es) (a : Fresh V) (value : V) :
    ∃ s' es', FfiList.pushl a s (some value) = some (s', some value) ∧ Holds s' es' ∧
      valuesOf es' = (valuesOf es).erase value ++ [value] := by
  obtain ⟨s₀, es₀, taken, rest, values⟩ := holds.taken value
  have all : Holds s₀ (es₀ ++ []) := by rwa [List.append_nil]
  obtain ⟨⟨h₁, h₂, next_set, prev_set, placed⟩, -⟩ := all.place a
  cases prev_set
  have new : value ∉ valuesOf (es₀ ++ []) := by
    rw [List.append_nil, values]
    exact holds.distinct_values.not_mem_erase
  have linked : Heap.setNext (s₀.heap.insert (a.calloc s₀.heap) { prev := s₀.tail, content := a.nextKey s₀.nvmap })
      s₀.tail (some (a.calloc s₀.heap)) = some h₁ := by
    rw [rest.tail]
    exact next_set
  have head : (if s₀.tail = none then some (a.calloc s₀.heap) else s₀.head) =
      headOr (cellsOf es₀) (some (a.calloc s₀.heap)) := by
    rw [headOr_eq_ite, ← rest.head, ← rest.tail]
  refine ⟨_, es₀ ++ [((a.calloc s₀.heap, a.nextKey s₀.nvmap), value)], ?_, placed.holds all new head rfl, ?_⟩
  · simp only [FfiList.pushl, taken, linked, Option.bind_eq_bind, Option.bind_some]
    rfl
  · rw [valuesOf_append, values]
    rfl

/-- How `insertf` and `insertl` end: the value they insert next to is not there, or the node is placed in front of
its node or behind it. -/
def Inserted (s : State V) (l : List V) (front back : List (Entry V)) (value : V)
    (result : Option (State V × Option V)) : Prop :=
  ∃ h p k, Holds s (front ++ back) ∧ valuesOf (front ++ back) = l ∧ value ∉ l ∧ Placed s front back h p k ∧
    result = some (add_maps { s with heap := h } p k value)

theorem Holds.insertf (holds : Holds s es) (a : Fresh V) (value beforeValue : V) :
    (beforeValue ∉ (valuesOf es).erase value ∧ ∃ s' es', FfiList.insertf a s (some value) (some beforeValue) =
      some (s', none) ∧ Holds s' es' ∧ valuesOf es' = (valuesOf es).erase value) ∨
    ∃ s₀ front e back, e.2 = beforeValue ∧ Inserted s₀ ((valuesOf es).erase value) front (e :: back) value
      (FfiList.insertf a s (some value) (some beforeValue)) := by
  obtain ⟨s₀, es₀, taken, rest, values⟩ := holds.taken value
  have new : value ∉ (valuesOf es).erase value := holds.distinct_values.not_mem_erase
  by_cases member : beforeValue ∈ valuesOf es₀
  · obtain ⟨front, e, back, rfl, rfl⟩ := exists_entry member
    obtain ⟨⟨h₁, h₂, next_set, prev_set, placed⟩, -⟩ := rest.place a
    refine .inr ⟨s₀, front, e, back, rfl, h₂, _, _, rest, values, new, placed, ?_⟩
    have linked : Heap.setNext (s₀.heap.insert (a.calloc s₀.heap)
        { prev := lastOr (cellsOf front) none, next := some e.1.1, content := a.nextKey s₀.nvmap })
        (lastOr (cellsOf front) none) (some (a.calloc s₀.heap)) = some h₁ := next_set
    have back_linked : h₁.setPrev (some e.1.1) (some (a.calloc s₀.heap)) = some h₂ := prev_set
    simp only [FfiList.insertf, taken, rest.vnode, rest.node, linked, back_linked, Option.bind_eq_bind,
      Option.bind_some]
  · refine .inl ⟨values ▸ member, s₀, es₀, ?_, rest, values⟩
    simp only [FfiList.insertf, taken, rest.no_node member, Option.bind_eq_bind, Option.bind_some]

theorem Holds.insertl (holds : Holds s es) (a : Fresh V) (value afterValue : V) :
    (afterValue ∉ (valuesOf es).erase value ∧ ∃ s' es', FfiList.insertl a s (some value) (some afterValue) =
      some (s', none) ∧ Holds s' es' ∧ valuesOf es' = (valuesOf es).erase value) ∨
    ∃ s₀ front e back, e.2 = afterValue ∧ Inserted s₀ ((valuesOf es).erase value) (front ++ [e]) back value
      (FfiList.insertl a s (some value) (some afterValue)) := by
  obtain ⟨s₀, es₀, taken, rest, values⟩ := holds.taken value
  have new : value ∉ (valuesOf es).erase value := holds.distinct_values.not_mem_erase
  by_cases member : afterValue ∈ valuesOf es₀
  · obtain ⟨front, e, back, rfl, rfl⟩ := exists_entry member
    have last : lastOr (cellsOf (front ++ [e])) none = some e.1.1 := by
      rw [cellsOf, List.map_append, lastOr_append]
      rfl
    have split : front ++ e :: back = front ++ [e] ++ back := List.append_cons ..
    obtain ⟨-, h₁, h₂, prev_set, next_set, placed⟩ := Holds.place (split ▸ rest) a
    refine .inr ⟨s₀, front, e, back, rfl, h₂, _, _, split ▸ rest, split ▸ values, new, placed, ?_⟩
    rw [last] at prev_set next_set
    have linked : Heap.setPrev (s₀.heap.insert (a.calloc s₀.heap)
        { prev := some e.1.1, next := headOr (cellsOf back) none, content := a.nextKey s₀.nvmap })
        (headOr (cellsOf back) none) (some (a.calloc s₀.heap)) = some h₁ := prev_set
    simp only [FfiList.insertl, taken, rest.vnode, rest.node, linked, next_set, Option.bind_eq_bind, Option.bind_some]
  · refine .inl ⟨values ▸ member, s₀, es₀, ?_, rest, values⟩
    simp only [FfiList.insertl, taken, rest.no_node member, Option.bind_eq_bind, Option.bind_some]

theorem Holds.valueAt (holds : Holds s (front ++ e :: back)) : FfiList.valueAt s (some e.1.1) = some (some e.2) := by
  simp only [FfiList.valueAt, holds.node, holds.value, Option.bind_eq_bind, Option.bind_some]

theorem Holds.count_pos (holds : Holds s (front ++ e :: back)) : ¬s.count ≤ 0 := by
  rw [holds.count, List.length_append, List.length_cons]
  omega

theorem Holds.head_eq (holds : Holds s (e :: back)) : s.head = some e.1.1 := holds.head

theorem Holds.tail_eq (holds : Holds s (front ++ [e])) : s.tail = some e.1.1 := by
  rw [holds.tail, cellsOf, List.map_append, lastOr_append]
  rfl

theorem Holds.first (holds : Holds s es) : FfiList.first s = some (valuesOf es).head? := by
  cases es with
  | nil => exact if_pos (Int.le_of_eq holds.count)
  | cons e back =>
    have start : Holds s ([] ++ e :: back) := holds
    rw [FfiList.first, if_neg start.count_pos, holds.head_eq]
    exact start.valueAt

theorem Holds.last (holds : Holds s es) : FfiList.last s = some (valuesOf es).getLast? := by
  rcases List.eq_nil_or_concat es with rfl | ⟨front, e, rfl⟩
  · exact if_pos (Int.le_of_eq holds.count)
  · rw [List.concat_eq_append] at holds ⊢
    rw [FfiList.last, if_neg holds.count_pos, holds.tail_eq, holds.valueAt, valuesOf_append]
    exact congrArg some List.getLast?_concat.symm

theorem Holds.popf (holds : Holds s es) : ∃ s' es', FfiList.popf s = some (s', (valuesOf es).head?) ∧ Holds s' es' ∧
    valuesOf es' = (valuesOf es).tail := by
  cases es with
  | nil => exact ⟨s, [], if_pos (Int.le_of_eq holds.count), holds, rfl⟩
  | cons e back =>
    have start : Holds s ([] ++ e :: back) := holds
    obtain ⟨s', taken, rest⟩ := start.remove_node
    refine ⟨s', back, ?_, rest, rfl⟩
    rw [FfiList.popf, if_neg start.count_pos, holds.head_eq, taken]
    rfl

theorem Holds.popl (holds : Holds s es) : ∃ s' es', FfiList.popl s = some (s', (valuesOf es).getLast?) ∧
    Holds s' es' ∧ valuesOf es' = (valuesOf es).dropLast := by
  rcases List.eq_nil_or_concat es with rfl | ⟨front, e, rfl⟩
  · exact ⟨s, [], if_pos (Int.le_of_eq holds.count), holds, rfl⟩
  · rw [List.concat_eq_append] at holds ⊢
    obtain ⟨s', taken, rest⟩ := holds.remove_node
    rw [List.append_nil] at rest
    have values : valuesOf (front ++ [e]) = valuesOf front ++ [e.2] := valuesOf_append
    refine ⟨s', front, ?_, rest, ?_⟩
    · rw [FfiList.popl, if_neg holds.count_pos, holds.tail_eq, taken, values, List.getLast?_concat]
    · rw [values, List.dropLast_concat]

theorem Holds.next (holds : Holds s (front ++ e :: back)) :
    FfiList.next s (some e.2) = some (valuesOf back).head? := by
  simp only [FfiList.next, Option.bind_some, holds.vnode, holds.node, Option.bind_eq_bind]
  cases back with
  | nil => rfl
  | cons e' back =>
    rw [List.append_cons] at holds
    exact holds.valueAt

theorem Holds.prev (holds : Holds s (front ++ e :: back)) :
    FfiList.prev s (some e.2) = some (valuesOf front).getLast? := by
  simp only [FfiList.prev, Option.bind_some, holds.vnode, holds.node, Option.bind_eq_bind]
  rcases List.eq_nil_or_concat front with rfl | ⟨front, e', rfl⟩
  · rfl
  · rw [List.concat_eq_append] at holds ⊢
    have last : lastOr (cellsOf (front ++ [e'])) none = some e'.1.1 := by
      rw [cellsOf, List.map_append, lastOr_append]
      rfl
    rw [last, if_neg (Option.some_ne_none _), valuesOf_append]
    rw [List.append_assoc] at holds
    exact holds.valueAt.trans (congrArg some List.getLast?_concat.symm)

omit [DecidableEq V] in
theorem added_eq {start stop : ℤ} {idx : ℕ} (first : idx < stop) (range : List V) (value : V) :
    (if start ≤ idx + 1 ∧ idx + 1 ≤ stop then range ++ (some value).toList else range) =
      range ++ [value].drop (start.toNat - 1 - idx) := by
  by_cases inside : start ≤ idx + 1
  · have none : start.toNat - 1 - idx = 0 := by omega
    rw [if_pos ⟨inside, first⟩, none]
    rfl
  · have all : start.toNat - 1 - idx = start.toNat - 1 - idx - 1 + 1 := by omega
    rw [if_neg fun both => inside both.1, all, List.drop_succ_cons, List.drop_nil, List.append_nil]

/-- What the loop of `range` adds, from the index of a node on. -/
theorem Holds.rangeLoop {stop : ℤ} (range : List V) (holds : Holds s (front ++ e :: back))
    (first : front.length < stop) (last : stop ≤ (front ++ e :: back).length) (start : ℤ) :
    FfiList.rangeLoop s start stop (front.length + 1) (some e.1.1) range =
      some (range ++ ((valuesOf (e :: back)).take (stop.toNat - front.length)).drop
        (start.toNat - 1 - front.length)) := by
  induction back generalizing front e range with
  | nil =>
    rw [List.length_append, List.length_singleton] at last
    have one : stop.toNat - front.length = 1 := by omega
    rw [FfiList.rangeLoop.eq_def]
    simp only [holds.node, holds.value, Option.bind_eq_bind, Option.bind_some]
    rw [if_pos (.inl rfl), one]
    exact congrArg some (added_eq first range e.2)
  | cons e' back ih =>
    have behind := List.append_cons front e (e' :: back)
    have follower : headOr (cellsOf (e' :: back)) none = some e'.1.1 := rfl
    rw [FfiList.rangeLoop.eq_def]
    simp only [holds.node, holds.value, follower, Option.bind_eq_bind, Option.bind_some]
    by_cases last : (front.length : ℤ) + 1 + 1 > stop
    · have one : stop.toNat - front.length = 1 := by omega
      rw [if_pos (.inr last), one]
      exact congrArg some (added_eq first range e.2)
    · rw [if_neg (not_or.mpr ⟨Option.some_ne_none _, last⟩)]
      have more : stop.toNat - front.length = stop.toNat - (front.length + 1) + 1 := by omega
      have values : (valuesOf (e :: e' :: back)).take (stop.toNat - front.length) =
          [e.2] ++ (valuesOf (e' :: back)).take (stop.toNat - (front.length + 1)) := by
        rw [more]
        rfl
      have moved : Holds s (front ++ [e] ++ e' :: back) := behind ▸ holds
      have rest := ih
        (if start ≤ front.length + 1 ∧ front.length + 1 ≤ stop then range ++ (some e.2).toList else range)
        moved (by rw [List.length_append, List.length_singleton]; omega) (behind ▸ ‹_›)
      rw [List.length_append, List.length_singleton] at rest
      push_cast at rest
      rw [values, List.drop_append, List.length_singleton, ← List.append_assoc, ← added_eq first,
        Nat.sub_sub (start.toNat - 1)]
      exact rest

theorem Holds.range (holds : Holds s es) (start stop : Option ℤ) :
    FfiList.range s start stop = some (
      if valuesOf es = [] ∨ start.getD 1 < 1 ∨ start.getD 1 > (valuesOf es).length ∨
        start.getD 1 > stop.getD (valuesOf es).length then []
      else ((valuesOf es).take (stop.getD (valuesOf es).length).toNat).drop ((start.getD 1).toNat - 1)) := by
  have count : s.count = (valuesOf es).length := by rw [holds.count, valuesOf, List.length_map]
  have none_ : ((valuesOf es).length : ℤ) ≤ 0 ↔ valuesOf es = [] := by
    rw [← List.length_eq_zero_iff]
    omega
  simp only [FfiList.range, count, none_]
  split
  · rfl
  · rename_i inside
    simp only [not_or, gt_iff_lt, Int.not_lt] at inside
    obtain ⟨some_, positive, small, ordered⟩ := inside
    cases es with
    | nil => exact absurd rfl some_
    | cons e back =>
      have len : (valuesOf (e :: back)).length = (e :: back).length := List.length_map _
      have first : ((([] : List (Entry V)).length : ℕ) : ℤ) <
          min ((valuesOf (e :: back)).length : ℤ) (stop.getD (valuesOf (e :: back)).length) := by
        rw [List.length_nil]
        omega
      have loop := (show Holds s ([] ++ e :: back) from holds).rangeLoop [] first
        (by rw [List.nil_append, len]; omega) (start.getD 1)
      simp only [List.length_nil, Nat.sub_zero, List.nil_append] at loop
      rw [holds.head_eq]
      refine loop.trans (congrArg (fun l => some (List.drop _ l)) ?_)
      rw [List.take_eq_take_iff]
      omega

theorem free_all {h : Heap ℕ} {ps : List ℕ} (inside : ∀ p ∈ ps, p ∈ h) (distinct : ps.Nodup) :
    ∃ h', ps.foldlM Heap.free h = some h' ∧ ∀ p, p ∈ h' ↔ p ∈ h ∧ p ∉ ps := by
  induction ps generalizing h with
  | nil => exact ⟨h, rfl, fun p => by simp⟩
  | cons p ps ih =>
    obtain ⟨other, distinct⟩ := List.nodup_cons.mp distinct
    obtain ⟨h', freed, left⟩ := ih (h := h.erase p) (fun q member => by
      rw [AList.mem_erase]
      exact ⟨fun same => other (same ▸ member), inside q (List.mem_cons_of_mem _ member)⟩) distinct
    refine ⟨h', ?_, fun q => ?_⟩
    · rw [List.foldlM_cons, Heap.free, if_pos (inside p (List.mem_cons_self ..))]
      exact freed
    · rw [left, AList.mem_erase, List.mem_cons, not_or]
      tauto

/-- The table knows every node, and each of them once. -/
theorem Holds.entries (holds : Holds s es) : (s.vnmap.entries.map Sigma.snd).Nodup ∧
    ∀ p, p ∈ s.vnmap.entries.map Sigma.snd ↔ p ∈ addresses (cellsOf es) := by
  have known (v : V) (p : ℕ) : (⟨v, p⟩ : (_ : V) × ℕ) ∈ s.vnmap.entries ↔ (v, p) ∈ vnPairs es :=
    AList.mem_lookup_iff.symm.trans (holds.vnmap v p)
  have pairs : (vnPairs es).map Prod.snd = addresses (cellsOf es) := by
    simp only [vnPairs, addresses, cellsOf, List.map_map]
    rfl
  constructor
  · refine List.Nodup.map_on ?_ s.vnmap.nodupKeys.nodup
    rintro ⟨v, p⟩ first ⟨w, q⟩ second rfl
    have same := List.inj_on_of_nodup_map (pairs ▸ holds.distinct) ((known v p).mp first) ((known w p).mp second) rfl
    cases same
    rfl
  · intro p
    rw [← pairs, List.mem_map, List.mem_map]
    constructor
    · rintro ⟨⟨v, p⟩, member, rfl⟩
      exact ⟨(v, p), (known v p).mp member, rfl⟩
    · rintro ⟨⟨v, p⟩, member, rfl⟩
      exact ⟨⟨v, p⟩, (known v p).mpr member, rfl⟩

theorem Holds.clear (holds : Holds s es) : ∃ s', FfiList.clear s = some s' ∧ Holds s' [] := by
  by_cases empty : s.count ≤ 0
  · have none_ : es = [] := by
      rw [holds.count] at empty
      exact List.length_eq_zero_iff.mp (by omega)
    subst none_
    exact ⟨s, if_pos empty, holds⟩
  · obtain ⟨distinct, all⟩ := holds.entries
    obtain ⟨heap, freed, left⟩ := free_all (fun p member => (holds.live p).mpr ((all p).mp member)) distinct
    refine ⟨{ heap }, ?_, { holds_new with linked := trivial, live := fun p => ?_ }⟩
    · rw [List.foldlM_map] at freed
      rw [FfiList.clear, if_neg empty, freed]
      rfl
    · rw [left, all, holds.live]
      exact ⟨fun both => absurd both.1 both.2, fun none_ => absurd none_ List.not_mem_nil⟩

end Specifications

end OmniaJit.Vendor.FfiList
