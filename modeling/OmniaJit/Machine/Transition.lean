import Mathlib.Logic.Relation

/-! # Transition relations

Reachability over an unlabelled step relation, with the invariant rule, the first step at which a
property is lost, and the transfer of reachability along a simulation.
-/

namespace OmniaJit.Machine

variable {α β : Type*}

/-- The states reached from `initial` in any number of steps. -/
abbrev Reachable (step : α → α → Prop) (initial : α) : α → Prop :=
  Relation.ReflTransGen step initial

namespace Reachable

variable {step : α → α → Prop} {property : α → Prop} {initial state : α}

/-- The invariant rule. -/
theorem invariant (reached : Reachable step initial state) (start : property initial)
    (preserved : ∀ source target, property source → step source target → property target) :
    property state := by
  induction reached with
  | refl => exact start
  | tail _ last ih => exact preserved _ _ ih last

/-- A property that holds at first either is kept by every step, or is lost in some step up to
which every step kept it. -/
theorem kept_or_lost (reached : Reachable step initial state) (start : property initial) :
    (Reachable (fun source target => step source target ∧ property target) initial state ∧
      property state) ∨
    ∃ source target, Reachable (fun source target => step source target ∧ property target) initial
      source ∧ property source ∧ step source target ∧ ¬ property target := by
  induction reached with
  | refl => exact .inl ⟨.refl, start⟩
  | @tail source target _ last ih =>
    rcases ih with ⟨path, held⟩ | lost
    · by_cases holds : property target
      · exact .inl ⟨path.tail ⟨last, holds⟩, holds⟩
      · exact .inr ⟨source, target, path, held, last, holds⟩
    · exact .inr lost

end Reachable

/-- Every step of one relation is matched by some number of steps of another. -/
def Simulates (step : α → α → Prop) (step' : β → β → Prop) (related : α → β → Prop) : Prop :=
  ∀ source target source', related source source' → step source target →
    ∃ target', Reachable step' source' target' ∧ related target target'

/-- A simulation reaches a related state for every reachable one. -/
theorem Simulates.reachable {step : α → α → Prop} {step' : β → β → Prop} {related : α → β → Prop}
    (simulates : Simulates step step' related) {initial state : α} {initial' : β}
    (reached : Reachable step initial state) (start : related initial initial') :
    ∃ state', Reachable step' initial' state' ∧ related state state' := by
  induction reached with
  | refl => exact ⟨initial', .refl, start⟩
  | tail _ last ih =>
    obtain ⟨source', path, matched⟩ := ih
    obtain ⟨target', more, matched⟩ := simulates _ _ _ matched last
    exact ⟨target', path.trans more, matched⟩

end OmniaJit.Machine
