import OmniaJit.Vendor.FfiListNodes

/-! # The list that `list` stands for

The calls on a list of distinct values, and when the linked structures behave like it. They do as long as no
value is inserted in front of the first value or behind the last one: the two ends are then not moved.
-/

namespace OmniaJit.Vendor.FfiList

open OmniaJit.Data

variable {V : Type} [DecidableEq V]

section Values

def insertBefore (value before_ : V) : List V → List V
  | [] => []
  | x :: l => if x = before_ then value :: x :: l else x :: insertBefore value before_ l

def insertAfter (value after : V) : List V → List V
  | [] => []
  | x :: l => if x = after then x :: value :: l else x :: insertAfter value after l

/-- The value behind another one. -/
def follower (v : V) : List V → Option V
  | x :: y :: l => if x = v then some y else follower v (y :: l)
  | _ => none

/-- What a call does to a list of values, and what it returns. A value that is inserted next to one that is not
there, or next to itself, is lost. -/
def listStep (l : List V) : Op V → List V × Out V
  | .first => (l, .value l.head?)
  | .last => (l, .value l.getLast?)
  | .pushf none => (l, .value none)
  | .pushf (some value) => (value :: l.erase value, .value (some value))
  | .pushl none => (l, .value none)
  | .pushl (some value) => (l.erase value ++ [value], .value (some value))
  | .insertf (some value) (some beforeValue) =>
    (insertBefore value beforeValue (l.erase value),
      .value (if beforeValue ∈ l.erase value then some value else none))
  | .insertf _ _ => (l, .value none)
  | .insertl (some value) (some afterValue) =>
    (insertAfter value afterValue (l.erase value),
      .value (if afterValue ∈ l.erase value then some value else none))
  | .insertl _ _ => (l, .value none)
  | .popf => (l.tail, .value l.head?)
  | .popl => (l.dropLast, .value l.getLast?)
  | .remove value =>
    match value with
    | none => (l, .value none)
    | some value => (l.erase value, .value (if value ∈ l then some value else none))
  | .next value => (l, .value (value.bind fun v => follower v l))
  | .prev value => (l, .value (value.bind fun v => follower v l.reverse))
  | .range start stop =>
    let start := start.getD 1
    let stop := stop.getD l.length
    (l, .values (if l = [] ∨ start < 1 ∨ start > l.length ∨ start > stop then []
      else (l.take stop.toNat).drop (start.toNat - 1)))
  | .clear => ([], .value none)
  | .count => (l, .number l.length)

/-- A call that inserts in front of the first value or behind the last one. -/
def AtEnd (l : List V) : Op V → Prop
  | .insertf (some value) (some beforeValue) => (l.erase value).head? = some beforeValue
  | .insertl (some value) (some afterValue) => (l.erase value).getLast? = some afterValue
  | _ => False

def listRun (l : List V) : List (Op V) → List V × List (Out V)
  | [] => (l, [])
  | op :: ops =>
    let (l, out) := listStep l op
    let (l, outs) := listRun l ops
    (l, out :: outs)

theorem insertBefore_append {value before_ : V} {l₁ : List V} (other : before_ ∉ l₁) (l₂ : List V) :
    insertBefore value before_ (l₁ ++ before_ :: l₂) = l₁ ++ value :: before_ :: l₂ := by
  induction l₁ with
  | nil => exact if_pos rfl
  | cons x l₁ ih =>
    obtain ⟨different, other⟩ := not_or.mp (List.mem_cons.not.mp other)
    rw [List.cons_append, insertBefore, if_neg (Ne.symm different), ih other]
    rfl

theorem insertBefore_absent {value before_ : V} {l : List V} (other : before_ ∉ l) :
    insertBefore value before_ l = l := by
  induction l with
  | nil => rfl
  | cons x l ih =>
    obtain ⟨different, other⟩ := not_or.mp (List.mem_cons.not.mp other)
    rw [insertBefore, if_neg (Ne.symm different), ih other]

theorem insertAfter_append {value after : V} {l₁ : List V} (other : after ∉ l₁) (l₂ : List V) :
    insertAfter value after (l₁ ++ after :: l₂) = l₁ ++ after :: value :: l₂ := by
  induction l₁ with
  | nil => exact if_pos rfl
  | cons x l₁ ih =>
    obtain ⟨different, other⟩ := not_or.mp (List.mem_cons.not.mp other)
    rw [List.cons_append, insertAfter, if_neg (Ne.symm different), ih other]
    rfl

theorem insertAfter_absent {value after : V} {l : List V} (other : after ∉ l) : insertAfter value after l = l := by
  induction l with
  | nil => rfl
  | cons x l ih =>
    obtain ⟨different, other⟩ := not_or.mp (List.mem_cons.not.mp other)
    rw [insertAfter, if_neg (Ne.symm different), ih other]

theorem follower_append {v : V} {l₁ : List V} (other : v ∉ l₁) (l₂ : List V) :
    follower v (l₁ ++ v :: l₂) = l₂.head? := by
  induction l₁ with
  | nil =>
    cases l₂ with
    | nil => rfl
    | cons y l₂ => exact if_pos rfl
  | cons x l₁ ih =>
    obtain ⟨different, other⟩ := not_or.mp (List.mem_cons.not.mp other)
    have rest := ih other
    cases l₁ with
    | nil => exact (if_neg (Ne.symm different)).trans rest
    | cons y l₁ => exact (if_neg (Ne.symm different)).trans rest

theorem follower_absent {v : V} {l : List V} (other : v ∉ l) : follower v l = none := by
  induction l with
  | nil => rfl
  | cons x l ih =>
    obtain ⟨different, other⟩ := not_or.mp (List.mem_cons.not.mp other)
    cases l with
    | nil => rfl
    | cons y l => exact (if_neg (Ne.symm different)).trans (ih other)

end Values

/-- The structures stand for the list, and hold nothing else. -/
def Represents (s : State V) (l : List V) : Prop := ∃ es, Holds s es ∧ valuesOf es = l

section Steps

variable {s : State V} {l : List V}

theorem Represents.ends (represents : Represents s l) : first s = some l.head? ∧ last s = some l.getLast? := by
  obtain ⟨es, holds, rfl⟩ := represents
  exact ⟨holds.first, holds.last⟩

theorem Represents.nodup (represents : Represents s l) : l.Nodup := by
  obtain ⟨es, holds, rfl⟩ := represents
  exact holds.distinct_values

/-- There are as many nodes as values. -/
theorem Represents.live (represents : Represents s l) : s.heap.keys.length = l.length := by
  obtain ⟨es, holds, rfl⟩ := represents
  have same : s.heap.keys.Perm (addresses (cellsOf es)) :=
    (List.perm_ext_iff_of_nodup s.heap.nodupKeys holds.distinct).mpr holds.live
  rw [same.length_eq, addresses, cellsOf, valuesOf, List.length_map, List.length_map, List.length_map]

/-- A node that is placed between two others. -/
theorem Inserted.represents {front back : List (Entry V)} {value : V} {result : Option (State V × Option V)}
    (inserted : Inserted s l front back value result) (before_ : front ≠ []) (behind : back ≠ []) :
    ∃ s', result = some (s', some value) ∧ Represents s' (valuesOf front ++ value :: valuesOf back) := by
  obtain ⟨h, p, k, holds, rfl, new, placed, rfl⟩ := inserted
  obtain ⟨e, front, rfl⟩ := List.exists_cons_of_ne_nil before_
  obtain ⟨e', back, rfl⟩ := List.exists_cons_of_ne_nil behind
  refine ⟨_, rfl, _, placed.holds holds new holds.head ?_, valuesOf_middle⟩
  obtain ⟨q, -, last⟩ := lastOr_cons e'.1 (cellsOf back)
  have cells : cellsOf (e :: front ++ e' :: back) = cellsOf (e :: front) ++ e'.1 :: cellsOf back := List.map_append ..
  rw [holds.tail, cells, lastOr_append, last]
  exact (last _).symm

/-- The value of an old node is the same after a new one is placed. -/
theorem Inserted.old_value {front back : List (Entry V)} {h : Heap ℕ} {p k : ℕ} {prev next : Option ℕ}
    {e : Entry V} (placed : Placed s front back h p k) (found : s.nvmap.lookup e.1.2 = some e.2)
    (node : h.lookup e.1.1 = some { prev, next, content := e.1.2 }) (value : V) :
    valueAt (add_maps { s with heap := h } p k value).1 (some e.1.1) = some (some e.2) := by
  have other : e.1.2 ≠ k := fun same => placed.free (AList.lookup_isSome.mp (by rw [← same, found]; rfl))
  simp only [valueAt, add_maps, node, Option.bind_eq_bind, Option.bind_some]
  rw [AList.lookup_insert_ne other, found]

/-- The first value stays the first one. -/
theorem Inserted.first {e : Entry V} {back : List (Entry V)} {value : V} {result : Option (State V × Option V)}
    (inserted : Inserted s l [] (e :: back) value result) :
    ∃ s', result = some (s', some value) ∧ FfiList.first s' = some (some e.2) ∧ e.2 ≠ value := by
  obtain ⟨h, p, k, holds, rfl, new, placed, rfl⟩ := inserted
  have counted : ¬s.count + 1 ≤ 0 := by
    have count := holds.count
    omega
  have seen := Inserted.old_value placed (show Holds s ([] ++ e :: back) from holds).value placed.behind.1 value
  rw [← holds.head_eq] at seen
  exact ⟨_, rfl, (if_neg counted).trans seen, fun same => new (same ▸ List.mem_cons_self ..)⟩

/-- The last value stays the last one. -/
theorem Inserted.last {e : Entry V} {front : List (Entry V)} {value : V} {result : Option (State V × Option V)}
    (inserted : Inserted s l (front ++ [e]) [] value result) :
    ∃ s', result = some (s', some value) ∧ FfiList.last s' = some (some e.2) ∧ e.2 ≠ value := by
  obtain ⟨h, p, k, holds, rfl, new, placed, rfl⟩ := inserted
  rw [List.append_nil] at holds new
  have counted : ¬s.count + 1 ≤ 0 := by
    have count := holds.count
    omega
  have linked := placed.before
  rw [cellsOf, List.map_append, linked_append] at linked
  have seen := Inserted.old_value placed holds.value linked.2.1 value
  rw [← holds.tail_eq] at seen
  refine ⟨_, rfl, (if_neg counted).trans seen, fun same => new ?_⟩
  rw [valuesOf_append, ← same]
  exact List.mem_append_right _ (List.mem_singleton_self _)

/-- The values around the one that is inserted next to. -/
theorem Inserted.values {f b front back : List (Entry V)} {e : Entry V} {value : V}
    {result : Option (State V × Option V)} (inserted : Inserted s l f b value result)
    (split : f ++ b = front ++ e :: back) :
    l = valuesOf front ++ e.2 :: valuesOf back ∧ e.2 ∉ valuesOf front ++ valuesOf back := by
  obtain ⟨h, p, k, holds, rfl, -⟩ := inserted
  rw [split] at holds ⊢
  exact ⟨valuesOf_middle, other_values holds.distinct_values⟩

theorem Holds.follower {es : List (Entry V)} (holds : Holds s es) (value : Option V) :
    FfiList.next s value = some (value.bind fun v => FfiList.follower v (valuesOf es)) := by
  cases value with
  | none => rfl
  | some v =>
    by_cases member : v ∈ valuesOf es
    · obtain ⟨front, e, back, rfl, rfl⟩ := exists_entry member
      have other := other_values holds.distinct_values
      rw [holds.next, Option.bind_some, valuesOf_middle,
        follower_append fun inside => other (List.mem_append_left _ inside)]
    · rw [FfiList.next, Option.bind_some, Option.bind_some, holds.no_node member, follower_absent member]

theorem Holds.precursor {es : List (Entry V)} (holds : Holds s es) (value : Option V) :
    FfiList.prev s value = some (value.bind fun v => FfiList.follower v (valuesOf es).reverse) := by
  cases value with
  | none => rfl
  | some v =>
    by_cases member : v ∈ valuesOf es
    · obtain ⟨front, e, back, rfl, rfl⟩ := exists_entry member
      have other := other_values holds.distinct_values
      rw [holds.prev, Option.bind_some, valuesOf_middle, List.reverse_append, List.reverse_cons, List.append_assoc,
        List.singleton_append, follower_append, List.head?_reverse]
      exact fun inside => other (List.mem_append_right _ (List.mem_reverse.mp inside))
    · rw [FfiList.prev, Option.bind_some, Option.bind_some, holds.no_node member,
        follower_absent (List.mem_reverse.not.mpr member)]

/-- A call does what it does to the list, if it does not insert at an end of it. -/
theorem step_middle (a : Fresh V) {op : Op V} (represents : Represents s l) (middle : ¬AtEnd l op) :
    ∃ s', step a s op = some (s', (listStep l op).2) ∧ Represents s' (listStep l op).1 := by
  obtain ⟨es, holds, rfl⟩ := represents
  cases op with
  | first => exact ⟨s, by rw [step, holds.first]; rfl, es, holds, rfl⟩
  | last => exact ⟨s, by rw [step, holds.last]; rfl, es, holds, rfl⟩
  | pushf value =>
    cases value with
    | none => exact ⟨s, rfl, es, holds, rfl⟩
    | some value =>
      obtain ⟨s', es', pushed, after, values⟩ := holds.pushf a value
      exact ⟨s', by rw [step, pushed]; rfl, es', after, values⟩
  | pushl value =>
    cases value with
    | none => exact ⟨s, rfl, es, holds, rfl⟩
    | some value =>
      obtain ⟨s', es', pushed, after, values⟩ := holds.pushl a value
      exact ⟨s', by rw [step, pushed]; rfl, es', after, values⟩
  | insertf value beforeValue =>
    match value, beforeValue with
    | none, _ | some _, none => exact ⟨s, rfl, es, holds, rfl⟩
    | some value, some beforeValue =>
      rcases holds.insertf a value beforeValue with ⟨absent, s', es', result, after, values⟩ |
        ⟨s₀, front, e, back, rfl, inserted⟩
      · refine ⟨s', ?_, es', after, ?_⟩
        · rw [step, result, listStep, if_neg absent]
          rfl
        · rw [listStep, insertBefore_absent absent, values]
      · obtain ⟨split, other⟩ := inserted.values rfl
        have inside : front ≠ [] := by
          rintro rfl
          exact middle (by rw [AtEnd, split]; rfl)
        obtain ⟨s', result, after⟩ := inserted.represents inside (List.cons_ne_nil _ _)
        refine ⟨s', ?_, ?_⟩
        · rw [step, result, listStep, if_pos (split ▸ List.mem_append_right _ (List.mem_cons_self ..))]
          rfl
        · rw [listStep, split, insertBefore_append fun member => other (List.mem_append_left _ member)]
          exact after
  | insertl value afterValue =>
    match value, afterValue with
    | none, _ | some _, none => exact ⟨s, rfl, es, holds, rfl⟩
    | some value, some afterValue =>
      rcases holds.insertl a value afterValue with ⟨absent, s', es', result, after, values⟩ |
        ⟨s₀, front, e, back, rfl, inserted⟩
      · refine ⟨s', ?_, es', after, ?_⟩
        · rw [step, result, listStep, if_neg absent]
          rfl
        · rw [listStep, insertAfter_absent absent, values]
      · obtain ⟨split, other⟩ := inserted.values (List.append_cons ..).symm
        have inside : back ≠ [] := by
          rintro rfl
          exact middle (by rw [AtEnd, split]; exact List.getLast?_concat)
        obtain ⟨s', result, after⟩ :=
          inserted.represents (List.append_ne_nil_of_right_ne_nil _ (List.cons_ne_nil _ _)) inside
        refine ⟨s', ?_, ?_⟩
        · rw [step, result, listStep, if_pos (split ▸ List.mem_append_right _ (List.mem_cons_self ..))]
          rfl
        · rw [listStep, split, insertAfter_append fun member => other (List.mem_append_left _ member)]
          rw [valuesOf_append, List.append_assoc] at after
          exact after
  | popf =>
    obtain ⟨s', es', popped, after, values⟩ := holds.popf
    exact ⟨s', by rw [step, popped]; rfl, es', after, values⟩
  | popl =>
    obtain ⟨s', es', popped, after, values⟩ := holds.popl
    exact ⟨s', by rw [step, popped]; rfl, es', after, values⟩
  | remove value =>
    cases value with
    | none => exact ⟨s, rfl, es, holds, rfl⟩
    | some value =>
      obtain ⟨s', es', taken, after, values⟩ := holds.taken value
      exact ⟨s', by rw [step, remove, taken]; rfl, es', after, values⟩
  | next value =>
    refine ⟨s, ?_, es, holds, rfl⟩
    rw [step, holds.follower]
    rfl
  | prev value =>
    refine ⟨s, ?_, es, holds, rfl⟩
    rw [step, holds.precursor]
    rfl
  | range start stop => exact ⟨s, by rw [step, holds.range]; rfl, es, holds, rfl⟩
  | clear =>
    obtain ⟨s', cleared, after⟩ := holds.clear
    exact ⟨s', by rw [step, cleared]; rfl, [], after, rfl⟩
  | count =>
    refine ⟨s, ?_, es, holds, rfl⟩
    rw [step, holds.count, listStep, valuesOf, List.length_map]

/-- A call that inserts at an end leaves an end that is not the one of the list. -/
theorem step_atEnd (a : Fresh V) {op : Op V} (represents : Represents s l) (atEnd : AtEnd l op) :
    ∃ s' out, step a s op = some (s', out) ∧
      ¬(first s' = some (listStep l op).1.head? ∧ last s' = some (listStep l op).1.getLast?) := by
  obtain ⟨es, holds, rfl⟩ := represents
  match op with
  | .insertf (some value) (some beforeValue) =>
    rw [AtEnd] at atEnd
    rcases holds.insertf a value beforeValue with ⟨absent, -⟩ | ⟨s₀, front, e, back, rfl, inserted⟩
    · exact absurd (List.mem_of_mem_head? atEnd) absent
    · obtain ⟨split, other⟩ := inserted.values rfl
      have none_ : front = [] := by
        cases front with
        | nil => rfl
        | cons e' front =>
          rw [split] at atEnd
          exact absurd (List.mem_cons.mpr (.inl (Option.some.inj atEnd).symm)) other
      subst none_
      obtain ⟨s', result, seen, different⟩ := inserted.first
      refine ⟨s', .value (some value), by rw [step, result]; rfl, fun ends => different ?_⟩
      have wrong := seen.symm.trans ends.1
      rw [listStep, split, insertBefore_append fun member => other (List.mem_append_left _ member)] at wrong
      exact Option.some.inj (Option.some.inj wrong)
  | .insertl (some value) (some afterValue) =>
    rw [AtEnd] at atEnd
    rcases holds.insertl a value afterValue with ⟨absent, -⟩ | ⟨s₀, front, e, back, rfl, inserted⟩
    · exact absurd (List.mem_of_getLast? atEnd) absent
    · obtain ⟨split, other⟩ := inserted.values (List.append_cons ..).symm
      have none_ : back = [] := by
        rcases List.eq_nil_or_concat back with rfl | ⟨back, e', rfl⟩
        · rfl
        · rw [List.concat_eq_append, valuesOf_append] at split other
          have last : ((valuesOf es).erase value).getLast? = some e'.2 := by
            rw [split, ← List.cons_append, ← List.append_assoc]
            exact List.getLast?_concat
          rw [← Option.some.inj (last.symm.trans atEnd)] at other
          exact absurd (List.mem_append_right _ (List.mem_append_right _ (List.mem_singleton_self _))) other
      subst none_
      obtain ⟨s', result, seen, different⟩ := inserted.last
      refine ⟨s', .value (some value), by rw [step, result]; rfl, fun ends => different ?_⟩
      have wrong := seen.symm.trans ends.2
      rw [listStep, split, insertAfter_append fun member => other (List.mem_append_left _ member),
        List.getLast?_append_cons] at wrong
      exact Option.some.inj (Option.some.inj wrong)

end Steps

section Runs

variable {s : State V} {l : List V} {calls : List (Fresh V × Op V)}

/-- No call of the run inserts at an end of the list there is by then. -/
def InMiddle (l : List V) : List (Op V) → Prop
  | [] => True
  | op :: ops => ¬AtEnd l op ∧ InMiddle (listStep l op).1 ops

def opsOf (calls : List (Fresh V × Op V)) : List (Op V) := calls.map Prod.snd

theorem run_cons {a : Fresh V} {op : Op V} {s₁ : State V} {out : Out V} (stepped : step a s op = some (s₁, out)) :
    run s ((a, op) :: calls) = (run s₁ calls).map fun after => (after.1, out :: after.2) := by
  simp only [FfiList.run, stepped, Option.bind_eq_bind, Option.bind_some, Option.map_eq_bind]
  rfl

theorem Represents.run (represents : Represents s l) (middle : InMiddle l (opsOf calls)) :
    ∃ s', run s calls = some (s', (listRun l (opsOf calls)).2) ∧ Represents s' (listRun l (opsOf calls)).1 := by
  induction calls generalizing s l with
  | nil => exact ⟨s, rfl, represents⟩
  | cons call calls ih =>
    obtain ⟨a, op⟩ := call
    obtain ⟨s₁, stepped, after⟩ := step_middle a represents middle.1
    obtain ⟨s', ran, final⟩ := ih after middle.2
    refine ⟨s', ?_, final⟩
    rw [run_cons stepped, ran]
    rfl

theorem represents_new : Represents ({} : State V) [] := ⟨[], holds_new, rfl⟩

/-- The numbers above all others are not in use. -/
def above (l : List ℕ) : ℕ := l.foldr max 0 + 1

theorem above_not_mem (l : List ℕ) : above l ∉ l := by
  have bound : ∀ n ∈ l, n < above l := by
    induction l with
    | nil => simp
    | cons m l ih =>
      rintro n (_ | ⟨_, member⟩)
      · exact Nat.lt_succ_of_le (Nat.le_max_left ..)
      · exact Nat.lt_of_lt_of_le (ih n member) (Nat.succ_le_succ (Nat.le_max_right ..))
  exact fun member => Nat.lt_irrefl _ (bound _ member)

def fresh : Fresh V where
  calloc heap := above heap.keys
  unused heap := above_not_mem heap.keys
  nextKey nvmap := above nvmap.keys
  free nvmap := above_not_mem nvmap.keys

-- Once the node of `b` is freed, the one that was inserted in front of it still points there.
example : run {} [(fresh, Op.pushl (some 'b')), (fresh, .insertf (some 'a') (some 'b')), (fresh, .pushf (some 'c')),
    (fresh, .remove (some 'b')), (fresh, .next (some 'a'))] = none := by
  decide +kernel

/-- The ends are the ones of the list, now and after every call of the run. -/
def EndsRight (s : State V) (l : List V) (calls : List (Fresh V × Op V)) : Prop :=
  ∀ n, ∃ s' outs, run s (calls.take n) = some (s', outs) ∧
    first s' = some (listRun l (opsOf (calls.take n))).1.head? ∧
      last s' = some (listRun l (opsOf (calls.take n))).1.getLast?

theorem Represents.endsRight_iff (represents : Represents s l) :
    EndsRight s l calls ↔ InMiddle l (opsOf calls) := by
  induction calls generalizing s l with
  | nil =>
    refine ⟨fun _ => trivial, fun _ n => ⟨s, [], ?_, ?_⟩⟩
    · rw [List.take_nil]
      rfl
    · rw [List.take_nil]
      exact represents.ends
  | cons call calls ih =>
    obtain ⟨a, op⟩ := call
    by_cases atEnd : AtEnd l op
    · refine ⟨fun right => ?_, fun middle => absurd atEnd middle.1⟩
      obtain ⟨s₁, out, stepped, wrong⟩ := step_atEnd a represents atEnd
      obtain ⟨s', outs, ran, ends⟩ := right 1
      rw [List.take_succ_cons, run_cons stepped, List.take_zero] at ran
      cases ran
      exact absurd ends wrong
    · obtain ⟨s₁, stepped, after⟩ := step_middle a represents atEnd
      refine Iff.trans ⟨fun right n => ?_, fun right n => ?_⟩ ((ih after).trans (and_iff_right atEnd).symm)
      · obtain ⟨s', outs, ran, ends⟩ := right (n + 1)
        rw [List.take_succ_cons, run_cons stepped] at ran
        obtain ⟨⟨s₂, outs⟩, rest, same⟩ := Option.map_eq_some_iff.mp ran
        cases same
        exact ⟨s₂, outs, rest, ends⟩
      · cases n with
        | zero => exact ⟨s, [], rfl, represents.ends⟩
        | succ n =>
          obtain ⟨s', outs, ran, ends⟩ := right n
          refine ⟨s', (listStep l op).2 :: outs, ?_, ends⟩
          rw [List.take_succ_cons, run_cons stepped, ran]
          rfl

/-- The ends of the list are always right exactly when no call inserts in front of the first value or behind the
last one. -/
theorem ends_right_iff (calls : List (Fresh V × Op V)) : EndsRight {} [] calls ↔ InMiddle [] (opsOf calls) :=
  represents_new.endsRight_iff

end Runs

end OmniaJit.Vendor.FfiList
