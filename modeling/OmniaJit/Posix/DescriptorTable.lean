import Mathlib.Data.Nat.Find
import Mathlib.Data.List.Pairwise
import Mathlib.Logic.Function.Basic

/-! # Descriptor tables

A process refers to its open files by small natural numbers. A table is a partial map with
finitely many entries, so a free number always exists and the least one is computable; the
system calls that create a descriptor return exactly that number. What an entry holds is left
to the user of the table.
-/

namespace OmniaJit.Posix

/-- The open descriptors of one process. All but finitely many numbers are free. -/
@[ext] structure DescriptorTable (α : Type*) where
  get : ℕ → Option α
  finite : ∃ bound, ∀ fd, bound ≤ fd → get fd = none

namespace DescriptorTable

variable {α β : Type*}

theorem exists_free (table : DescriptorTable α) : ∃ fd, table.get fd = none := by
  obtain ⟨bound, free⟩ := table.finite
  exact ⟨bound, free bound le_rfl⟩

/-- The number a new descriptor receives. -/
def lowestFree (table : DescriptorTable α) : ℕ := Nat.find table.exists_free

@[simp] theorem get_lowestFree (table : DescriptorTable α) : table.get table.lowestFree = none :=
  Nat.find_spec table.exists_free

theorem lowestFree_le {table : DescriptorTable α} {fd : ℕ} (free : table.get fd = none) :
    table.lowestFree ≤ fd :=
  Nat.find_min' table.exists_free free

/-- Make `fd` refer to `entry`, whatever it referred to before. -/
def set (table : DescriptorTable α) (fd : ℕ) (entry : α) : DescriptorTable α where
  get := Function.update table.get fd (some entry)
  finite := by
    obtain ⟨bound, free⟩ := table.finite
    refine ⟨max bound (fd + 1), fun other above => ?_⟩
    rw [Function.update_of_ne (by omega), free other (by omega)]

/-- Free `fd`. Closing a number that is not open changes nothing. -/
def close (table : DescriptorTable α) (fd : ℕ) : DescriptorTable α where
  get := Function.update table.get fd none
  finite := by
    obtain ⟨bound, free⟩ := table.finite
    refine ⟨bound, fun other above => ?_⟩
    by_cases same : other = fd
    · rw [same, Function.update_self]
    · rw [Function.update_of_ne same, free other above]

/-- Keep the entries that satisfy `keep`. -/
def filter (table : DescriptorTable α) (keep : α → Bool) : DescriptorTable α where
  get fd := (table.get fd).filter keep
  finite := by
    obtain ⟨bound, free⟩ := table.finite
    exact ⟨bound, fun fd above => by rw [free fd above]; rfl⟩

/-- Translate every entry. -/
def map (table : DescriptorTable α) (f : α → β) : DescriptorTable β where
  get fd := (table.get fd).map f
  finite := by
    obtain ⟨bound, free⟩ := table.finite
    exact ⟨bound, fun fd above => by rw [free fd above]; rfl⟩

theorem get_set (table : DescriptorTable α) (fd query : ℕ) (entry : α) :
    (table.set fd entry).get query = if query = fd then some entry else table.get query :=
  Function.update_apply ..

theorem get_close (table : DescriptorTable α) (fd query : ℕ) :
    (table.close fd).get query = if query = fd then none else table.get query :=
  Function.update_apply ..

@[simp] theorem get_set_self (table : DescriptorTable α) (fd : ℕ) (entry : α) :
    (table.set fd entry).get fd = some entry := Function.update_self ..

@[simp] theorem get_close_self (table : DescriptorTable α) (fd : ℕ) :
    (table.close fd).get fd = none := Function.update_self ..

@[simp] theorem get_filter (table : DescriptorTable α) (keep : α → Bool) (fd : ℕ) :
    (table.filter keep).get fd = (table.get fd).filter keep := rfl

@[simp] theorem get_map (table : DescriptorTable α) (f : α → β) (fd : ℕ) :
    (table.map f).get fd = (table.get fd).map f := rfl

theorem get_set_of_ne (table : DescriptorTable α) {fd query : ℕ} (other : query ≠ fd) (entry : α) :
    (table.set fd entry).get query = table.get query := Function.update_of_ne other ..

theorem get_close_of_ne (table : DescriptorTable α) {fd query : ℕ} (other : query ≠ fd) :
    (table.close fd).get query = table.get query := Function.update_of_ne other ..

/-- Allocation only fills a free number, so an occupied one keeps its entry. -/
theorem get_set_lowestFree_of_ne_none (table : DescriptorTable α) {fd : ℕ} (entry : α)
    (occupied : table.get fd ≠ none) :
    (table.set table.lowestFree entry).get fd = table.get fd :=
  table.get_set_of_ne (fun same => occupied (by rw [same, get_lowestFree])) entry

/-- Consecutive allocations return increasing numbers. -/
theorem lowestFree_lt_lowestFree_set (table : DescriptorTable α) (entry : α) :
    table.lowestFree < (table.set table.lowestFree entry).lowestFree := by
  have distinct : (table.set table.lowestFree entry).lowestFree ≠ table.lowestFree := by
    intro same
    have free := (table.set table.lowestFree entry).get_lowestFree
    rw [same, get_set_self] at free
    contradiction
  have free := (table.set table.lowestFree entry).get_lowestFree
  rw [table.get_set_of_ne distinct] at free
  exact lt_of_le_of_ne (lowestFree_le free) distinct.symm

/-- Closing what was just allocated restores the table. -/
theorem close_set_lowestFree (table : DescriptorTable α) (entry : α) :
    (table.set table.lowestFree entry).close table.lowestFree = table := by
  ext1
  funext query
  rcases eq_or_ne query table.lowestFree with rfl | same
  · rw [get_close_self, get_lowestFree]
  · rw [get_close_of_ne _ same, get_set_of_ne _ same]

/-- `taken` lists, in order, the numbers that successive allocations from `before` have filled to
reach `after`: each was free, and no smaller free number was passed over. -/
structure Taken (before : DescriptorTable α) (taken : List ℕ) (after : DescriptorTable α) :
    Prop where
  increasing : taken.Pairwise (· < ·)
  fresh : ∀ fd ∈ taken, before.get fd = none
  least : ∀ fd ∈ taken, ∀ lower < fd, before.get lower = none → lower ∈ taken
  frame : ∀ fd, fd ∉ taken → after.get fd = before.get fd
  occupied : ∀ fd ∈ taken, after.get fd ≠ none

namespace Taken

variable {before after : DescriptorTable α} {taken : List ℕ}

theorem nil (table : DescriptorTable α) : Taken table [] table where
  increasing := List.Pairwise.nil
  fresh := by simp
  least := by simp
  frame _ _ := rfl
  occupied := by simp

theorem lowestFree_not_mem (valid : Taken before taken after) : after.lowestFree ∉ taken :=
  fun member => valid.occupied _ member after.get_lowestFree

theorem lowestFree_fresh (valid : Taken before taken after) :
    before.get after.lowestFree = none := by
  rw [← valid.frame _ valid.lowestFree_not_mem, get_lowestFree]

/-- One more allocation takes one more number, larger than all before it. -/
theorem allocate (valid : Taken before taken after) (entry : α) :
    Taken before (taken ++ [after.lowestFree]) (after.set after.lowestFree entry) where
  increasing := by
    rw [List.pairwise_append]
    refine ⟨valid.increasing, List.pairwise_singleton .., ?_⟩
    intro fd member other last
    obtain rfl := List.mem_singleton.mp last
    by_contra above
    have smaller : after.lowestFree < fd :=
      lt_of_le_of_ne (not_lt.mp above) (fun same => valid.lowestFree_not_mem (same ▸ member))
    exact valid.lowestFree_not_mem (valid.least fd member _ smaller valid.lowestFree_fresh)
  fresh fd member := by
    rcases List.mem_append.mp member with old | last
    · exact valid.fresh fd old
    · rw [List.mem_singleton.mp last]
      exact valid.lowestFree_fresh
  least fd member lower below free := by
    rcases List.mem_append.mp member with old | last
    · exact List.mem_append_left _ (valid.least fd old lower below free)
    · by_contra passed
      have untouched := valid.frame lower (fun old => passed (List.mem_append_left _ old))
      have bound := lowestFree_le (untouched.trans free)
      rw [List.mem_singleton.mp last] at below
      omega
  frame fd absent := by
    rw [List.mem_append, List.mem_singleton, not_or] at absent
    rw [get_set_of_ne _ absent.2, valid.frame fd absent.1]
  occupied fd member := by
    rcases List.mem_append.mp member with old | last
    · rw [get_set_lowestFree_of_ne_none _ _ (valid.occupied fd old)]
      exact valid.occupied fd old
    · rw [List.mem_singleton.mp last, get_set_self]
      exact Option.some_ne_none _

end Taken

end DescriptorTable

end OmniaJit.Posix
