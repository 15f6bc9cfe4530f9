import Mathlib.Init
import Mathlib.Tactic.TypeStar

/-! # Stateful programs with early exits

A program transforms a state and either continues with a value or leaves early with an exit
value; both carry the state reached. `Ensures` is the weakest precondition of a program for a
pair of postconditions, one for each way out. Its equations turn a sequence of calls into nested
postconditions, and `Preserves` packages the facts that hold at every way out of a program.
-/

namespace OmniaJit.Machine

/-- A program over states `σ` that may leave early with an `ε`. -/
abbrev Program (ε σ α : Type) := EStateM ε σ α

namespace Program

variable {ε σ α β : Type}

/-- Both ways out of `program` meet their postcondition, from this source state. -/
def Ensures (program : Program ε σ α) (source : σ) (post : α → σ → Prop)
    (exit : ε → σ → Prop) : Prop :=
  match program source with
  | .ok value target => post value target
  | .error value target => exit value target

variable {post : α → σ → Prop} {exit : ε → σ → Prop} {source : σ}

theorem ensures_of_ok {program : Program ε σ α} {value : α} {target : σ}
    (ran : program source = .ok value target) :
    Ensures program source post exit ↔ post value target := by
  simp only [Ensures, ran]

@[simp] theorem ensures_pure (value : α) :
    Ensures (pure value) source post exit ↔ post value source := Iff.rfl

@[simp] theorem ensures_throw (value : ε) :
    Ensures (throw value : Program ε σ α) source post exit ↔ exit value source := Iff.rfl

@[simp] theorem ensures_get {post : σ → σ → Prop} :
    Ensures (get : Program ε σ σ) source post exit ↔ post source source := Iff.rfl

@[simp] theorem ensures_modify {post : PUnit → σ → Prop} (f : σ → σ) :
    Ensures (modify f : Program ε σ PUnit) source post exit ↔ post ⟨⟩ (f source) := Iff.rfl

/-- The continuation is entered from the state the first part leaves, and an early exit of the
first part is an exit of the whole. -/
@[simp] theorem ensures_bind {post : β → σ → Prop} (first : Program ε σ α)
    (rest : α → Program ε σ β) :
    Ensures (first >>= rest) source post exit ↔
      Ensures first source (fun value target => Ensures (rest value) target post exit) exit := by
  simp only [Ensures, bind, EStateM.bind]
  cases first source <;> rfl

@[simp] theorem ensures_map {post : β → σ → Prop} (f : α → β) (program : Program ε σ α) :
    Ensures (f <$> program) source post exit ↔
      Ensures program source (fun value target => post (f value) target) exit := by
  simp only [Ensures, Functor.map, EStateM.map]
  cases program source <;> rfl

theorem ensures_ite (condition : Prop) [Decidable condition] (first second : Program ε σ α) :
    Ensures (if condition then first else second) source post exit ↔
      (condition → Ensures first source post exit) ∧
      (¬ condition → Ensures second source post exit) := by
  by_cases holds : condition <;> simp [holds]

/-- Weaken both postconditions. -/
theorem Ensures.mono {program : Program ε σ α} {post' : α → σ → Prop} {exit' : ε → σ → Prop}
    (ensures : Ensures program source post exit)
    (weakerPost : ∀ value target, post value target → post' value target)
    (weakerExit : ∀ value target, exit value target → exit' value target) :
    Ensures program source post' exit' := by
  simp only [Ensures] at ensures ⊢
  cases ran : program source with
  | ok value target => exact weakerPost value target (by simpa only [ran] using ensures)
  | error value target => exact weakerExit value target (by simpa only [ran] using ensures)

/-- A program that cannot fail returns. -/
theorem Ensures.returns {program : Program ε σ α} (ensures : Ensures program source post fun _ _ => False) :
    ∃ value target, program source = .ok value target ∧ post value target := by
  simp only [Ensures] at ensures
  cases ran : program source with
  | ok value target => exact ⟨value, target, rfl, by rwa [ran] at ensures⟩
  | error value target => exact absurd (by rwa [ran] at ensures) not_false

/-- A program that cannot return fails. -/
theorem Ensures.fails {program : Program ε σ α} (ensures : Ensures program source (fun _ _ => False) exit) :
    ∃ error target, program source = .error error target ∧ exit error target := by
  simp only [Ensures] at ensures
  cases ran : program source with
  | ok value target => exact absurd (by rwa [ran] at ensures) not_false
  | error value target => exact ⟨value, target, rfl, by rwa [ran] at ensures⟩

/-- A run with a single outcome. -/
theorem Ensures.eq_ok {program : Program ε σ α} {value : α} {target : σ}
    (ensures : Ensures program source (fun result reached => result = value ∧ reached = target) (fun _ _ => False)) :
    program source = .ok value target := by
  obtain ⟨result, reached, ran, rfl, rfl⟩ := ensures.returns
  exact ran

/-- Two independent facts about one run. -/
theorem Ensures.and {program : Program ε σ α} {post' : α → σ → Prop} {exit' : ε → σ → Prop}
    (first : Ensures program source post exit) (second : Ensures program source post' exit') :
    Ensures program source (fun value target => post value target ∧ post' value target)
      (fun value target => exit value target ∧ exit' value target) := by
  simp only [Ensures] at first second ⊢
  cases ran : program source with
  | ok value target => exact ⟨by simpa only [ran] using first, by simpa only [ran] using second⟩
  | error value target =>
    exact ⟨by simpa only [ran] using first, by simpa only [ran] using second⟩

/-- A state property that no part of the program can break. -/
def Preserves (program : Program ε σ α) (invariant : σ → Prop) : Prop :=
  ∀ source, invariant source →
    Ensures program source (fun _ target => invariant target) (fun _ target => invariant target)

variable {invariant : σ → Prop}

theorem Preserves.pure (value : α) : Preserves (Pure.pure value : Program ε σ α) invariant :=
  fun _ holds => holds

theorem Preserves.throw (value : ε) : Preserves (MonadExcept.throw value : Program ε σ α) invariant :=
  fun _ holds => holds

theorem Preserves.get : Preserves (MonadState.get : Program ε σ σ) invariant :=
  fun _ holds => holds

theorem Preserves.bind {first : Program ε σ α} {rest : α → Program ε σ β}
    (head : Preserves first invariant) (tail : ∀ value, Preserves (rest value) invariant) :
    Preserves (first >>= rest) invariant := by
  intro source holds
  rw [ensures_bind]
  exact (head source holds).mono (fun value target reached => tail value target reached)
    (fun _ _ reached => reached)

end Program

end OmniaJit.Machine
