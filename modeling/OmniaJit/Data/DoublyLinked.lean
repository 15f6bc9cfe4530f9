import Mathlib.Data.List.AList

/-! # Doubly linked cells

A heap of cells, each with the addresses of its neighbours and a content. A segment of the heap represents a
list of addresses and contents, between the neighbours before its first cell and behind its last one. Cells are
taken out of a segment and put into it by changes to the cells next to them, and to no others.
-/

namespace OmniaJit.Data

/-- A cell; no address stands for a null pointer. -/
structure Link (κ : Type*) where
  prev : Option ℕ := none
  next : Option ℕ := none
  content : κ
deriving DecidableEq

abbrev Heap (κ : Type*) := AList fun _ : ℕ => Link κ

namespace Heap

variable {κ : Type*}

/-- An assignment to the field `next` of a cell, if the pointer to it is not null. The cell must be there. -/
def setNext (h : Heap κ) (p next : Option ℕ) : Option (Heap κ) :=
  match p with
  | none => some h
  | some p => (h.lookup p).map fun link => h.insert p { link with next }

/-- An assignment to the field `prev`. -/
def setPrev (h : Heap κ) (p prev : Option ℕ) : Option (Heap κ) :=
  match p with
  | none => some h
  | some p => (h.lookup p).map fun link => h.insert p { link with prev }

/-- `free`, of a cell that must be there. -/
def free (h : Heap κ) (p : ℕ) : Option (Heap κ) := if p ∈ h then some (h.erase p) else none

end Heap

section Segments

variable {κ : Type*} {h h' : Heap κ} {cells front back : List (ℕ × κ)} {prev next : Option ℕ}

def addresses (cells : List (ℕ × κ)) : List ℕ := cells.map Prod.fst

/-- The address of the first cell, or else what is behind all of them. -/
def headOr : List (ℕ × κ) → Option ℕ → Option ℕ
  | [], next => next
  | c :: _, _ => some c.1

/-- The address of the last cell, or else what is before all of them. -/
def lastOr : List (ℕ × κ) → Option ℕ → Option ℕ
  | [], prev => prev
  | c :: cells, _ => lastOr cells (some c.1)

/-- The heap holds the cells, linked in both directions. -/
def Linked (h : Heap κ) (prev : Option ℕ) : List (ℕ × κ) → Option ℕ → Prop
  | [], _ => True
  | c :: cells, next =>
    h.lookup c.1 = some { prev, next := headOr cells next, content := c.2 } ∧ Linked h (some c.1) cells next

theorem headOr_append : headOr (front ++ back) next = headOr front (headOr back next) := by
  cases front <;> rfl

theorem lastOr_append : lastOr (front ++ back) prev = lastOr back (lastOr front prev) := by
  induction front generalizing prev with
  | nil => rfl
  | cons c front ih => exact ih

/-- What is behind a cell takes its place if it was the first one. -/
theorem headOr_replace {p : ℕ} (other : p ∉ addresses cells) (next : Option ℕ) :
    (if headOr cells (some p) = some p then next else headOr cells (some p)) = headOr cells next := by
  cases cells with
  | nil => exact if_pos rfl
  | cons c cells =>
    refine if_neg fun same => other ?_
    rw [← Option.some.inj same]
    exact List.mem_cons_self ..

theorem lastOr_cons (c : ℕ × κ) (cells : List (ℕ × κ)) :
    ∃ p ∈ addresses (c :: cells), ∀ q, lastOr (c :: cells) q = some p := by
  induction cells generalizing c with
  | nil => exact ⟨c.1, List.mem_cons_self .., fun _ => rfl⟩
  | cons d cells ih =>
    obtain ⟨p, member, last⟩ := ih d
    exact ⟨p, List.mem_cons_of_mem _ member, fun _ => last (some c.1)⟩

/-- There is a last cell if there is a first one. -/
theorem lastOr_eq_ite (cells : List (ℕ × κ)) (prev : Option ℕ) :
    lastOr cells prev = if headOr cells none = none then prev else lastOr cells none := by
  cases cells with
  | nil => rfl
  | cons c cells =>
    obtain ⟨p, -, last⟩ := lastOr_cons c cells
    rw [last, last]
    rfl

theorem headOr_eq_ite (cells : List (ℕ × κ)) (next : Option ℕ) :
    headOr cells next = if lastOr cells none = none then next else headOr cells none := by
  cases cells with
  | nil => rfl
  | cons c cells =>
    obtain ⟨p, -, last⟩ := lastOr_cons c cells
    rw [last]
    rfl

/-- What is before a cell takes its place if it was the last one. -/
theorem lastOr_replace {p : ℕ} (other : p ∉ addresses cells) (prev : Option ℕ) :
    (if lastOr cells (some p) = some p then prev else lastOr cells (some p)) = lastOr cells prev := by
  cases cells with
  | nil => exact if_pos rfl
  | cons c cells =>
    obtain ⟨q, member, last⟩ := lastOr_cons c cells
    rw [last, last, if_neg]
    exact fun same => other (Option.some.inj same ▸ member)

theorem linked_append :
    Linked h prev (front ++ back) next ↔
      Linked h prev front (headOr back next) ∧ Linked h (lastOr front prev) back next := by
  induction front generalizing prev with
  | nil => simp [Linked, lastOr]
  | cons c front ih => rw [List.cons_append, Linked, Linked, headOr_append, ih, and_assoc, lastOr]

/-- The other cells of the heap do not matter. -/
theorem Linked.frame (linked : Linked h prev cells next) (same : ∀ p ∈ addresses cells, h'.lookup p = h.lookup p) :
    Linked h' prev cells next := by
  induction cells generalizing prev with
  | nil => trivial
  | cons c cells ih =>
    obtain ⟨first, others⟩ := List.forall_mem_cons.mp same
    exact ⟨first.trans linked.1, ih linked.2 others⟩

/-- A heap with the same cells, of which only the ones at `ps` may have changed. -/
def ChangedAt (h h' : Heap κ) (ps : List ℕ) : Prop :=
  (∀ p, p ∈ h' ↔ p ∈ h) ∧ ∀ p ∉ ps, h'.lookup p = h.lookup p

theorem ChangedAt.refl (h : Heap κ) (ps : List ℕ) : ChangedAt h h ps := ⟨fun _ => Iff.rfl, fun _ _ => rfl⟩

theorem ChangedAt.insert {p : ℕ} {ps : List ℕ} (old : p ∈ h) (inside : p ∈ ps) (link : Link κ) :
    ChangedAt h (h.insert p link) ps := by
  refine ⟨fun q => ?_, fun q other => AList.lookup_insert_ne fun same => other (same ▸ inside)⟩
  rw [AList.mem_insert]
  exact or_iff_right_of_imp fun same => same ▸ old

/-- The last cell of a segment gets another neighbour. -/
theorem Linked.setNext (linked : Linked h prev cells next) (distinct : (addresses cells).Nodup) (n : Option ℕ) :
    ∃ h', h.setNext (lastOr cells none) n = some h' ∧ Linked h' prev cells n ∧ ChangedAt h h' (addresses cells) := by
  rcases List.eq_nil_or_concat cells with rfl | ⟨cells, c, rfl⟩
  · exact ⟨h, rfl, trivial, .refl h _⟩
  · rw [List.concat_eq_append] at *
    obtain ⟨before, last, -⟩ := linked_append.mp linked
    rw [addresses, List.map_append, List.map_singleton, List.nodup_append] at distinct
    have other (p : ℕ) (member : p ∈ addresses cells) : p ≠ c.1 :=
      distinct.2.2 p member c.1 (List.mem_singleton_self c.1)
    have end_ : lastOr (cells ++ [c]) none = some c.1 := by rw [lastOr_append]; rfl
    rw [end_, Heap.setNext, last, Option.map_some]
    refine ⟨_, rfl, linked_append.mpr ⟨?_, ?_, trivial⟩, ?_⟩
    · exact before.frame fun p member => AList.lookup_insert_ne (other p member)
    · exact AList.lookup_insert h
    · refine .insert (AList.lookup_isSome.mp (by rw [last]; rfl)) ?_ _
      rw [addresses, List.map_append]
      exact List.mem_append_right _ (List.mem_singleton_self c.1)

/-- The first cell of a segment gets another neighbour. -/
theorem Linked.setPrev (linked : Linked h prev cells next) (distinct : (addresses cells).Nodup) (n : Option ℕ) :
    ∃ h', h.setPrev (headOr cells none) n = some h' ∧ Linked h' n cells next ∧ ChangedAt h h' (addresses cells) := by
  cases cells with
  | nil => exact ⟨h, rfl, trivial, .refl h _⟩
  | cons c cells =>
    obtain ⟨first, behind⟩ := linked
    have other (p : ℕ) (member : p ∈ addresses cells) : p ≠ c.1 := by
      rintro rfl
      exact (List.nodup_cons.mp distinct).1 member
    rw [headOr, Heap.setPrev, first, Option.map_some]
    refine ⟨_, rfl, ⟨AList.lookup_insert h, ?_⟩, ?_⟩
    · exact behind.frame fun p member => AList.lookup_insert_ne (other p member)
    · exact .insert (AList.lookup_isSome.mp (by rw [first]; rfl)) (List.mem_cons_self ..) _

theorem ChangedAt.trans {h'' : Heap κ} {ps qs : List ℕ} (first : ChangedAt h h' ps) (second : ChangedAt h' h'' qs) :
    ChangedAt h h'' (ps ++ qs) := by
  refine ⟨fun p => (second.1 p).trans (first.1 p), fun p other => ?_⟩
  obtain ⟨front, back⟩ := not_or.mp (List.mem_append.not.mp other)
  rw [second.2 p back, first.2 p front]

theorem Linked.unchanged {ps : List ℕ} (linked : Linked h prev cells next) (changed : ChangedAt h h' ps)
    (apart : (addresses cells).Disjoint ps) : Linked h' prev cells next :=
  linked.frame fun p member => changed.2 p (apart member)

/-- The ends of two segments get new neighbours. -/
theorem Linked.splice (before : Linked h none front next) (behind : Linked h prev back none)
    (distinct : (addresses front ++ addresses back).Nodup) (n p : Option ℕ) :
    ∃ h₁ h₂, h.setNext (lastOr front none) n = some h₁ ∧ h₁.setPrev (headOr back none) p = some h₂ ∧
      Linked h₂ none front n ∧ Linked h₂ p back none ∧ ChangedAt h h₁ (addresses front) ∧
        ChangedAt h h₂ (addresses front ++ addresses back) := by
  obtain ⟨front_distinct, back_distinct, apart⟩ := List.nodup_append'.mp distinct
  obtain ⟨h₁, next_set, front_linked, front_changed⟩ := before.setNext front_distinct n
  obtain ⟨h₂, prev_set, back_linked, back_changed⟩ :=
    (behind.unchanged front_changed (List.disjoint_symm apart)).setPrev back_distinct p
  exact ⟨h₁, h₂, next_set, prev_set, front_linked.unchanged back_changed apart, back_linked, front_changed,
    front_changed.trans back_changed⟩

/-- The same in the other order. -/
theorem Linked.splice' (before : Linked h none front next) (behind : Linked h prev back none)
    (distinct : (addresses front ++ addresses back).Nodup) (n p : Option ℕ) :
    ∃ h₁ h₂, h.setPrev (headOr back none) p = some h₁ ∧ h₁.setNext (lastOr front none) n = some h₂ ∧
      Linked h₂ none front n ∧ Linked h₂ p back none ∧ ChangedAt h h₂ (addresses back ++ addresses front) := by
  obtain ⟨front_distinct, back_distinct, apart⟩ := List.nodup_append'.mp distinct
  obtain ⟨h₁, prev_set, back_linked, back_changed⟩ := behind.setPrev back_distinct p
  obtain ⟨h₂, next_set, front_linked, front_changed⟩ :=
    (before.unchanged back_changed apart).setNext front_distinct n
  exact ⟨h₁, h₂, prev_set, next_set, front_linked, back_linked.unchanged front_changed (List.disjoint_symm apart),
    back_changed.trans front_changed⟩

end Segments

end OmniaJit.Data
