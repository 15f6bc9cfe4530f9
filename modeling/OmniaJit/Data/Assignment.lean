import Mathlib.Data.List.Forall2
import Mathlib.Data.List.Nodup

/-! # Assignments in a row

A table that is filled by one assignment after another. If the keys are distinct, none of them is
overwritten. The assignments may come from a list of partial results.
-/

namespace OmniaJit.Data

section Assign

variable {κ ν : Type*} [DecidableEq κ] {table : κ → Option ν} {entries : List (κ × ν)} {key : κ}

/-- The table after the assignments, the last one of a key being the one that counts. -/
def assign (table : κ → Option ν) (entries : List (κ × ν)) : κ → Option ν :=
  entries.foldl (fun table entry => Function.update table entry.1 (some entry.2)) table

theorem assign_cons (entry : κ × ν) :
    assign table (entry :: entries) = assign (Function.update table entry.1 (some entry.2)) entries := rfl

theorem assign_of_notMem (other : key ∉ entries.map Prod.fst) : assign table entries key = table key := by
  induction entries generalizing table with
  | nil => rfl
  | cons entry entries ih =>
    rw [List.map_cons, List.mem_cons, not_or] at other
    rw [assign_cons, ih other.2, Function.update_of_ne other.1]

theorem assign_of_mem {value : ν} (distinct : (entries.map Prod.fst).Nodup)
    (member : (key, value) ∈ entries) : assign table entries key = some value := by
  induction entries generalizing table with
  | nil => cases member
  | cons entry entries ih =>
    rw [List.map_cons, List.nodup_cons] at distinct
    rw [assign_cons]
    rcases List.mem_cons.mp member with rfl | later
    · rw [assign_of_notMem distinct.1, Function.update_self]
    · exact ih distinct.2 later

end Assign

section Partial

variable {α β : Type*} {f : α → Option β}

theorem mapM_eq_some_iff {s : List α} {t : List β} :
    s.mapM f = some t ↔ List.Forall₂ (fun a b => f a = some b) s t := by
  induction s generalizing t with
  | nil => simp [eq_comm]
  | cons a s ih =>
    rw [List.mapM_cons, List.forall₂_cons_left_iff]
    constructor
    · intro done
      obtain ⟨b, first, done⟩ := Option.bind_eq_some_iff.mp done
      obtain ⟨t, rest, done⟩ := Option.bind_eq_some_iff.mp done
      exact ⟨b, t, first, ih.mp rest, (Option.some.inj done).symm⟩
    · rintro ⟨b, t, first, rest, rfl⟩
      rw [first, ih.mpr rest]
      rfl

theorem mapM_isSome_iff {s : List α} : (s.mapM f).isSome ↔ ∀ a ∈ s, (f a).isSome := by
  induction s with
  | nil => simp
  | cons a s ih =>
    rw [List.forall_mem_cons, ← ih, List.mapM_cons]
    cases f a <;> cases s.mapM f <;> simp

theorem mem_of_mapM {s : List α} {t : List β} {a : α} {b : β} (done : s.mapM f = some t)
    (member : a ∈ s) (value : f a = some b) : b ∈ t := by
  have related := mapM_eq_some_iff.mp done
  induction related with
  | nil => cases member
  | cons first rest ih =>
    rcases List.mem_cons.mp member with rfl | later
    · obtain rfl := Option.some.inj (first.symm.trans value)
      exact List.mem_cons_self ..
    · exact List.mem_cons_of_mem _ (ih (mapM_eq_some_iff.mpr rest) later)

section Keyed

variable {κ ν : Type*} {f : α → Option (κ × ν)} {key : α → κ} {s : List α} {entries : List (κ × ν)}

theorem keys_of_mapM (keyed : ∀ a ∈ s, ∀ entry, f a = some entry → entry.1 = key a)
    (done : s.mapM f = some entries) : entries.map Prod.fst = s.map key := by
  have related := mapM_eq_some_iff.mp done
  induction related with
  | nil => rfl
  | cons first rest ih =>
    rw [List.map_cons, List.map_cons, keyed _ (List.mem_cons_self ..) _ first,
      ih (fun a member => keyed a (List.mem_cons_of_mem _ member)) (mapM_eq_some_iff.mpr rest)]

variable [DecidableEq κ] {table : κ → Option ν}

/-- The entry of an element, among elements with distinct keys. -/
theorem assign_mapM_of_mem (keyed : ∀ a ∈ s, ∀ entry, f a = some entry → entry.1 = key a)
    (done : s.mapM f = some entries) (distinct : (s.map key).Nodup) {a : α} {value : ν} (member : a ∈ s)
    (entry : f a = some (key a, value)) : assign table entries (key a) = some value := by
  apply assign_of_mem
  · rwa [keys_of_mapM keyed done]
  · exact mem_of_mapM done member entry

theorem assign_mapM_of_notMem (keyed : ∀ a ∈ s, ∀ entry, f a = some entry → entry.1 = key a)
    (done : s.mapM f = some entries) {k : κ} (other : ∀ a ∈ s, key a ≠ k) :
    assign table entries k = table k := by
  apply assign_of_notMem
  rw [keys_of_mapM keyed done]
  intro member
  obtain ⟨a, member, same⟩ := List.mem_map.mp member
  exact other a member same

end Keyed

end Partial

end OmniaJit.Data
