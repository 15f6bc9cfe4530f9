import OmniaJit.Vendor.FfiListRefinement

/-! # Walking through a list that changes

The function that `walk` returns keeps a node between its calls. It goes through the list as it is at each call,
as long as the node it keeps is not taken out: `remove`, `popf`, `popl` and `clear` free a node, and so does
every call that gives a value a new place.
-/

namespace OmniaJit.Vendor.FfiList

open OmniaJit.Data

variable {V : Type} [DecidableEq V]

/-- The call frees the node of this value. -/
def Takes (l : List V) (v : V) : Op V → Prop
  | .pushf (some value) | .pushl (some value) | .remove (some value) => value = v
  | .insertf (some value) (some _) | .insertl (some value) (some _) => value = v
  | .popf => l.head? = some v
  | .popl => l.getLast? = some v
  | .clear => True
  | _ => False

/-- A call on the list, or one of the function that `walk` has returned. -/
inductive Act (V : Type) where
  | call (a : Fresh V) (op : Op V)
  | next

/-- What that function returns in its calls. -/
def walkRun (s : State V) (w : Walk) : List (Act V) → Option (List (Option (ℕ × Option V)))
  | [] => some []
  | .call a op :: acts => do
    let (s, _) ← step a s op
    walkRun s w acts
  | .next :: acts => do
    let (w, out) ← w.next s
    let outs ← walkRun s w acts
    some (out :: outs)

/-- The same on a list of values: the value that comes next is fixed in the call before. -/
def listWalk (l : List V) (idx : ℕ) (v : Option V) : List (Act V) → List (Option (ℕ × Option V))
  | [] => []
  | .call _ op :: acts => listWalk (listStep l op).1 idx v acts
  | .next :: acts => v.map (fun value => (idx, some value)) ::
      listWalk l (if v.isSome then idx + 1 else idx) (v.bind fun value => follower value l) acts

/-- No call inserts at an end of the list, or takes out the value that comes next. -/
def Undisturbed (l : List V) (v : Option V) : List (Act V) → Prop
  | [] => True
  | .call _ op :: acts =>
    ¬AtEnd l op ∧ (∀ value ∈ v, ¬Takes l value op) ∧ Undisturbed (listStep l op).1 v acts
  | .next :: acts => Undisturbed l (v.bind fun value => follower value l) acts

section Nodes

variable {s s' s₀ : State V} {l : List V} {es : List (Entry V)} {value v : V}

/-- Only the value that is taken out loses its node. -/
theorem remove_node_vnmap {node : Option ℕ} {out : Option V} (removed : remove_node s node = some (s', out))
    (other : out ≠ some v) : s'.vnmap.lookup v = s.vnmap.lookup v := by
  cases node with
  | none =>
    cases removed
    rfl
  | some node =>
    simp only [remove_node, Option.bind_eq_bind, Option.bind_eq_some_iff, Option.some.injEq, Prod.mk.injEq] at removed
    obtain ⟨n, -, value, -, h₁, -, n₁, -, h₂, -, n₂, -, h₃, -, rfl, rfl⟩ := removed
    exact AList.lookup_erase_ne fun same => other (congrArg some same.symm)

/-- The first step of every call that gives a value a new place. -/
theorem Holds.taken_vnmap (holds : Holds s es) (other : value ≠ v) {out : Option V}
    (taken : FfiList.remove_node s (s.vnmap.lookup value) = some (s₀, out)) :
    s₀.vnmap.lookup v = s.vnmap.lookup v := by
  apply remove_node_vnmap taken
  obtain ⟨s', es', taken', -⟩ := holds.taken value
  cases taken.symm.trans taken'
  split_ifs
  · exact fun same => other (Option.some.inj same)
  · exact (Option.some_ne_none v).symm

theorem add_maps_vnmap {node key : ℕ} (other : value ≠ v) {out : Option V}
    (added : add_maps s node key value = (s', out)) (old : s.vnmap = s₀.vnmap) :
    s'.vnmap.lookup v = s₀.vnmap.lookup v := by
  cases added
  rw [← old]
  exact AList.lookup_insert_ne other.symm

theorem Holds.pushf_vnmap (holds : Holds s es) {a : Fresh V} (other : value ≠ v) {out : Option V}
    (pushed : FfiList.pushf a s (some value) = some (s', out)) : s'.vnmap.lookup v = s.vnmap.lookup v := by
  simp only [FfiList.pushf, Option.bind_eq_bind, Option.bind_eq_some_iff, Option.some.injEq, Prod.exists] at pushed
  obtain ⟨s₀, _, taken, heap, -, added⟩ := pushed
  rw [← holds.taken_vnmap other taken]
  exact add_maps_vnmap other added rfl

theorem Holds.pushl_vnmap (holds : Holds s es) {a : Fresh V} (other : value ≠ v) {out : Option V}
    (pushed : FfiList.pushl a s (some value) = some (s', out)) : s'.vnmap.lookup v = s.vnmap.lookup v := by
  simp only [FfiList.pushl, Option.bind_eq_bind, Option.bind_eq_some_iff, Option.some.injEq, Prod.exists] at pushed
  obtain ⟨s₀, _, taken, heap, -, added⟩ := pushed
  rw [← holds.taken_vnmap other taken]
  exact add_maps_vnmap other added rfl

theorem Holds.insertf_vnmap (holds : Holds s es) {a : Fresh V} {beforeValue : V} (other : value ≠ v) {out : Option V}
    (inserted : FfiList.insertf a s (some value) (some beforeValue) = some (s', out)) :
    s'.vnmap.lookup v = s.vnmap.lookup v := by
  simp only [FfiList.insertf, Option.bind_eq_bind, Option.bind_eq_some_iff, Prod.exists] at inserted
  obtain ⟨s₀, _, taken, inserted⟩ := inserted
  rw [← holds.taken_vnmap other taken]
  cases node : s₀.vnmap.lookup beforeValue with
  | none =>
    rw [node] at inserted
    cases inserted
    rfl
  | some bnode =>
    simp only [node, Option.bind_eq_some_iff, Option.some.injEq] at inserted
    obtain ⟨b, -, h₁, -, h₂, -, added⟩ := inserted
    exact add_maps_vnmap other added rfl

theorem Holds.insertl_vnmap (holds : Holds s es) {a : Fresh V} {afterValue : V} (other : value ≠ v) {out : Option V}
    (inserted : FfiList.insertl a s (some value) (some afterValue) = some (s', out)) :
    s'.vnmap.lookup v = s.vnmap.lookup v := by
  simp only [FfiList.insertl, Option.bind_eq_bind, Option.bind_eq_some_iff, Prod.exists] at inserted
  obtain ⟨s₀, _, taken, inserted⟩ := inserted
  rw [← holds.taken_vnmap other taken]
  cases node : s₀.vnmap.lookup afterValue with
  | none =>
    rw [node] at inserted
    cases inserted
    rfl
  | some anode =>
    simp only [node, Option.bind_eq_some_iff, Option.some.injEq] at inserted
    obtain ⟨n, -, h₁, -, h₂, -, added⟩ := inserted
    exact add_maps_vnmap other added rfl

/-- A call keeps the node of every value that it does not take out. -/
theorem step_vnmap {a : Fresh V} {op : Op V} {out : Out V} (represents : Represents s l) (kept : ¬Takes l v op)
    (stepped : step a s op = some (s', out)) : s'.vnmap.lookup v = s.vnmap.lookup v := by
  obtain ⟨es, holds, rfl⟩ := represents
  have unchanged {γ : Type} {result : Option γ} {f : γ → Out V}
      (same : result.map (fun x => (s, f x)) = some (s', out)) : s'.vnmap.lookup v = s.vnmap.lookup v := by
    obtain ⟨x, -, pair⟩ := Option.map_eq_some_iff.mp same
    rw [(Prod.mk.inj pair).1]
  have changed {result : Option (State V × Option V)}
      (same : result.map (fun after => (after.1, Out.value after.2)) = some (s', out)) :
      ∃ out', result = some (s', out') := by
    obtain ⟨⟨s'', out'⟩, returned, pair⟩ := Option.map_eq_some_iff.mp same
    obtain ⟨rfl, -⟩ := Prod.mk.inj pair
    exact ⟨out', returned⟩
  cases op with
  | first => exact unchanged stepped
  | last => exact unchanged stepped
  | next value => exact unchanged stepped
  | prev value => exact unchanged stepped
  | range start stop => exact unchanged stepped
  | count =>
    cases stepped
    rfl
  | clear => exact absurd trivial kept
  | pushf value =>
    obtain ⟨out', pushed⟩ := changed stepped
    cases value with
    | none =>
      cases pushed
      rfl
    | some value => exact holds.pushf_vnmap kept pushed
  | pushl value =>
    obtain ⟨out', pushed⟩ := changed stepped
    cases value with
    | none =>
      cases pushed
      rfl
    | some value => exact holds.pushl_vnmap kept pushed
  | insertf value beforeValue =>
    obtain ⟨out', inserted⟩ := changed stepped
    cases value with
    | none =>
      cases inserted
      rfl
    | some value =>
      cases beforeValue with
      | none =>
        cases inserted
        rfl
      | some beforeValue => exact holds.insertf_vnmap kept inserted
  | insertl value afterValue =>
    obtain ⟨out', inserted⟩ := changed stepped
    cases value with
    | none =>
      cases inserted
      rfl
    | some value =>
      cases afterValue with
      | none =>
        cases inserted
        rfl
      | some afterValue => exact holds.insertl_vnmap kept inserted
  | popf =>
    obtain ⟨out', popped⟩ := changed stepped
    obtain ⟨s'', es', result, -⟩ := holds.popf
    obtain ⟨-, rfl⟩ := Prod.mk.inj (Option.some.inj (popped.symm.trans result))
    rw [FfiList.popf] at popped
    split_ifs at popped
    · rw [(Prod.mk.inj (Option.some.inj popped)).1]
    · exact remove_node_vnmap popped kept
  | popl =>
    obtain ⟨out', popped⟩ := changed stepped
    obtain ⟨s'', es', result, -⟩ := holds.popl
    obtain ⟨-, rfl⟩ := Prod.mk.inj (Option.some.inj (popped.symm.trans result))
    rw [FfiList.popl] at popped
    split_ifs at popped
    · rw [(Prod.mk.inj (Option.some.inj popped)).1]
    · exact remove_node_vnmap popped kept
  | remove value =>
    obtain ⟨out', removed⟩ := changed stepped
    cases value with
    | none =>
      cases removed
      rfl
    | some value => exact holds.taken_vnmap kept removed

end Nodes

section Walks

variable {s s' : State V} {l : List V} {w : Walk} {v : Option V}

/-- The node that is kept is the one of the value that comes next, which is in the list. -/
structure Walk.At (w : Walk) (s : State V) (l : List V) (v : Option V) : Prop where
  node : w.node = v.bind s.vnmap.lookup
  inside : ∀ value ∈ v, value ∈ l

theorem walk_at (represents : Represents s l) : (walk s).At s l l.head? := by
  obtain ⟨es, holds, rfl⟩ := represents
  refine ⟨?_, fun value first => List.mem_of_mem_head? first⟩
  cases es with
  | nil => exact if_pos (Int.le_of_eq holds.count)
  | cons e back =>
    have start : Holds s ([] ++ e :: back) := holds
    have node : (walk s).node = s.head := if_neg start.count_pos
    rw [node, holds.head_eq]
    exact start.vnode.symm

/-- One call of the function. -/
theorem Walk.At.next (at_ : w.At s l v) (represents : Represents s l) :
    ∃ w', w.next s = some (w', v.map fun value => (w.idx, some value)) ∧
      w'.idx = (if v.isSome then w.idx + 1 else w.idx) ∧ w'.At s l (v.bind fun value => follower value l) := by
  obtain ⟨es, holds, rfl⟩ := represents
  obtain ⟨node, inside⟩ := at_
  cases v with
  | none =>
    refine ⟨w, ?_, rfl, node, fun value none_ => absurd none_ (Option.not_mem_none value)⟩
    rw [Walk.next, node]
    rfl
  | some value =>
    obtain ⟨front, e, back, rfl, rfl⟩ := exists_entry (inside value rfl)
    have other := other_values holds.distinct_values
    rw [Option.bind_some, holds.vnode] at node
    refine ⟨{ idx := w.idx + 1, node := headOr (cellsOf back) none }, ?_, rfl, ?_⟩
    · simp only [Walk.next, node, holds.node, holds.value, Option.bind_eq_bind, Option.bind_some, Option.map_some]
    · rw [Option.bind_some, valuesOf_middle,
        follower_append fun member => other (List.mem_append_left _ member)]
      cases back with
      | nil => exact ⟨rfl, fun value none_ => absurd none_ (Option.not_mem_none value)⟩
      | cons e' back =>
        rw [List.append_cons] at holds
        refine ⟨holds.vnode.symm, fun value second => ?_⟩
        exact List.mem_append_right _ (List.mem_cons_of_mem _ (List.mem_of_mem_head? second))

/-- A call on the list that does not take out what comes next. -/
theorem Walk.At.step {a : Fresh V} {op : Op V} {out : Out V} (at_ : w.At s l v) (represents : Represents s l)
    (kept : ∀ value ∈ v, ¬Takes l value op) (stepped : FfiList.step a s op = some (s', out)) {l' : List V}
    (after : Represents s' l') : w.At s' l' v := by
  cases v with
  | none => exact ⟨at_.node, fun value none_ => absurd none_ (Option.not_mem_none value)⟩
  | some value =>
    have same := step_vnmap represents (kept value rfl) stepped
    refine ⟨at_.node.trans same.symm, fun value' here => ?_⟩
    obtain rfl := Option.some.inj here
    obtain ⟨es, holds, rfl⟩ := represents
    obtain ⟨es', holds', rfl⟩ := after
    by_contra absent
    obtain ⟨front, e, back, rfl, rfl⟩ := exists_entry (at_.inside value rfl)
    rw [holds'.no_node absent, holds.vnode] at same
    exact Option.some_ne_none _ same.symm

/-- The function returns what it returns on the list. -/
theorem walkRun_eq {acts : List (Act V)} (represents : Represents s l) (at_ : w.At s l v)
    (undisturbed : Undisturbed l v acts) : walkRun s w acts = some (listWalk l w.idx v acts) := by
  induction acts generalizing s l w v with
  | nil => rfl
  | cons act acts ih =>
    cases act with
    | call a op =>
      obtain ⟨middle, kept, later⟩ := undisturbed
      obtain ⟨s', stepped, after⟩ := step_middle a represents middle
      rw [walkRun, stepped, listWalk]
      exact ih after (at_.step represents kept stepped after) later
    | next =>
      obtain ⟨w', returned, idx, at'⟩ := at_.next represents
      rw [walkRun, returned, listWalk, ← idx]
      simp only [Option.bind_eq_bind, Option.bind_some, ih represents at' undisturbed]

/-- In a run that never inserts at an end, no memory is touched that was freed or never there, every call returns
what it returns on the list, and in the end there are as many nodes as values. The same holds of a walk through
that list with more calls in between, if none of them takes out the value that comes next. -/
theorem run_refines {calls : List (Fresh V × Op V)} (middle : InMiddle [] (opsOf calls)) :
    ∃ s : State V, run {} calls = some (s, (listRun [] (opsOf calls)).2) ∧
      s.heap.keys.length = (listRun [] (opsOf calls)).1.length ∧ (listRun [] (opsOf calls)).1.Nodup ∧
      ∀ acts, Undisturbed (listRun [] (opsOf calls)).1 (listRun [] (opsOf calls)).1.head? acts →
        walkRun s (walk s) acts =
          some (listWalk (listRun [] (opsOf calls)).1 1 (listRun [] (opsOf calls)).1.head? acts) := by
  obtain ⟨s, ran, after⟩ := represents_new.run middle
  exact ⟨s, ran, after.live, after.nodup, fun acts => walkRun_eq after (walk_at after)⟩

/-- A list of three values, and a walk during which the last one is removed. -/
theorem run_refines_between : InMiddle [] (opsOf [(fresh, Op.pushl (some 'a')), (fresh, .pushl (some 'c')),
      (fresh, .insertf (some 'b') (some 'c'))]) ∧
    ∃ s, run {} [(fresh, Op.pushl (some 'a')), (fresh, .pushl (some 'c')), (fresh, .insertf (some 'b') (some 'c'))] =
        some (s, [.value (some 'a'), .value (some 'c'), .value (some 'b')]) ∧
      s.heap.keys.length = 3 ∧ ['a', 'b', 'c'].Nodup ∧
      walkRun s (walk s) [.next, .call fresh (.remove (some 'c')), .next, .next] =
        some [some (1, some 'a'), some (2, some 'b'), none] := by
  have middle : InMiddle [] (opsOf [((fresh : Fresh Char), Op.pushl (some 'a')), (fresh, .pushl (some 'c')),
      (fresh, .insertf (some 'b') (some 'c'))]) :=
    ⟨id, id, by simp [AtEnd, listStep], trivial⟩
  obtain ⟨s, ran, live, distinct, walks⟩ := run_refines middle
  have undisturbed : Undisturbed ['a', 'b', 'c'] (some 'a')
      [.next, .call (fresh : Fresh Char) (.remove (some 'c')), .next, .next] :=
    ⟨id, fun value second => by cases second; exact (by decide : 'c' ≠ 'b'), trivial⟩
  exact ⟨middle, s, ran, live, distinct, walks _ undisturbed⟩

-- The walk is at the node of `b` when it is freed.
example : (run {} [(fresh, Op.pushl (some 'a')), (fresh, .pushl (some 'b'))]).bind
    (fun (s, _) => walkRun s (walk s) [.next, .call fresh (.remove (some 'b')), .next]) = none := by
  decide +kernel

theorem undisturbed_next (l : List V) (v : Option V) (n : ℕ) : Undisturbed l v (List.replicate n .next) := by
  induction n generalizing v with
  | zero => trivial
  | succ n ih => exact ih _

theorem listWalk_values {front back : List V} (distinct : (front ++ back).Nodup) (idx : ℕ) :
    listWalk (front ++ back) idx back.head? (List.replicate (back.length + 1) .next) =
      (back.zipIdx idx).map (fun (value, i) => some (i, some value)) ++ [none] := by
  induction back generalizing front idx with
  | nil => rfl
  | cons value back ih =>
    have other : value ∉ front := by
      rw [List.nodup_middle] at distinct
      exact fun member => (List.nodup_cons.mp distinct).1 (List.mem_append_left _ member)
    rw [List.length_cons, List.replicate_succ, listWalk, List.head?_cons, Option.bind_some, follower_append other,
      List.append_cons, ih (List.append_cons .. ▸ distinct)]
    rfl

/-- Without any call in between, a walk returns all values in order, with their indices. -/
theorem walk_values (represents : Represents s l) :
    walkRun s (walk s) (List.replicate (l.length + 1) .next) =
      some ((l.zipIdx 1).map (fun (value, i) => some (i, some value)) ++ [none]) := by
  have distinct : ([] ++ l).Nodup := represents.nodup
  rw [walkRun_eq represents (walk_at represents) (undisturbed_next ..)]
  exact congrArg some (listWalk_values distinct 1)

end Walks

end OmniaJit.Vendor.FfiList
