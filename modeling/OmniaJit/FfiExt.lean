import OmniaJit.Exec.SystemCalls

/-! # The helpers of `ffi_ext`

`retry` repeats a call for as long as it fails with `EINTR` or `EAGAIN`. The attempts of one
call site are a finite list, so a retry loop that never gets another answer blocks.
-/

namespace OmniaJit.FfiExt

open OmniaJit.Machine OmniaJit.Exec

/-- `string.format("%s: %s", s, ffi.string(C.strerror(e)))`. -/
def strerror (env : Environment) (e : Errno) (s : String) : String := s ++ ": " ++ env.strerror e

/-- A failure that `retry` does not report. -/
def Transient (e : Errno) : Prop := e = EINTR ∨ e = EAGAIN

instance (e : Errno) : Decidable (Transient e) := inferInstanceAs (Decidable (_ ∨ _))

/-- Repeat `fn` until it succeeds or fails for good. -/
def retry {α : Type} (fn : Option Errno → M (Except Errno α)) :
    List (Option Errno) → M (Except Errno α)
  | [] => throw .blocked
  | attempt :: rest => do
    match ← fn attempt with
    | .ok r => pure (.ok r)
    | .error e => if ¬ Transient e then pure (.error e) else retry fn rest

/-- The attempt at which `retry` stops: the first success or lasting failure. -/
def settle (attempts : List (Option Errno)) : Option (Option Errno) :=
  attempts.find? fun attempt => attempt.all fun e => ¬ Transient e

theorem settle_interrupted {e : Errno} (transient : Transient e) (rest : List (Option Errno)) :
    settle (some e :: rest) = settle rest := by
  simp [settle, transient]

theorem settle_success (rest : List (Option Errno)) : settle (none :: rest) = some none := rfl

theorem settle_failure {e : Errno} (lasting : ¬ Transient e) (rest : List (Option Errno)) :
    settle (some e :: rest) = some (some e) := by
  simp [settle, lasting]

/-- An unwrapped call makes one attempt. -/
def once {α : Type} (fn : Option Errno → M (Except Errno α)) :
    List (Option Errno) → M (Except Errno α)
  | [] => throw .blocked
  | attempt :: _ => fn attempt

/-- `errno()`. -/
def errno : M Errno := do
  let p ← get
  pure p.errno

/-- `ffiext.open`, whose success test is `r > 0`: descriptor 0 counts as a failure. -/
def «open» (env : Environment) (target : Target) (dest : Fd) : M (Except Errno Fd) := do
  match ← retry (C.open target dest) (env.attempts (.open dest)) with
  | .ok r => if r > 0 then pure (.ok r) else return .error (← errno)
  | .error e => pure (.error e)

section Rules

variable {α : Type} {event : Except Errno α → Event} {effect : Table → α × Table}
  {post : Except Errno α → Proc → Prop} {exit : Exit → Proc → Prop}

/-- The loop rule. Interruptions only log failed attempts, so an invariant that such entries
keep holds when the call finally succeeds, fails for good, or never comes back. -/
theorem ensures_retry (invariant : Proc → Prop) (attempts : List (Option Errno)) {p : Proc}
    (start : invariant p)
    (interrupted : ∀ q e, some e ∈ attempts → Transient e → invariant q →
      invariant (q.record (event (.error e))))
    (succeeded : ∀ q, settle attempts = some none → invariant q → post (.ok (effect q.fds).1)
      ({ q with fds := (effect q.fds).2 }.record (event (.ok (effect q.fds).1))))
    (failed : ∀ q e, settle attempts = some (some e) → invariant q →
      post (.error e) (q.record (event (.error e))))
    (blocked : ∀ q, settle attempts = none → invariant q → exit .blocked q) :
    Program.Ensures (retry (syscall event effect) attempts) p post exit := by
  induction attempts generalizing p with
  | nil => exact blocked p rfl start
  | cons attempt rest ih =>
    simp only [retry, Program.ensures_bind, ensures_syscall]
    refine ⟨?_, ?_⟩
    · rintro e rfl
      simp only [Program.ensures_ite, Program.ensures_pure]
      refine ⟨fun lasting => failed p e (settle_failure lasting rest) start, fun soft => ?_⟩
      have transient := not_not.mp soft
      rw [settle_interrupted transient] at succeeded failed blocked
      exact ih (interrupted p e (List.mem_cons_self ..) transient start)
        (fun q e member => interrupted q e (List.mem_cons_of_mem _ member)) succeeded failed blocked
    · rintro rfl
      exact succeeded p (settle_success rest) start

/-- A call that succeeds at once is made once. -/
theorem ensures_retry_ok {attempts : List (Option Errno)} (succeeds : attempts.head? = some none)
    (p : Proc) :
    Program.Ensures (retry (syscall event effect) attempts) p post exit ↔
      post (.ok (effect p.fds).1)
        ({ p with fds := (effect p.fds).2 }.record (event (.ok (effect p.fds).1))) := by
  obtain ⟨rest, rfl⟩ : ∃ rest, attempts = none :: rest := List.head?_eq_some_iff.mp succeeds
  rfl

theorem ensures_once_ok {attempts : List (Option Errno)} (succeeds : attempts.head? = some none)
    (p : Proc) :
    Program.Ensures (once (syscall event effect) attempts) p post exit ↔
      post (.ok (effect p.fds).1)
        ({ p with fds := (effect p.fds).2 }.record (event (.ok (effect p.fds).1))) := by
  obtain ⟨rest, rfl⟩ : ∃ rest, attempts = none :: rest := List.head?_eq_some_iff.mp succeeds
  rfl

/-- An unwrapped call has the fate of its first attempt. -/
theorem ensures_once (attempts : List (Option Errno)) {p : Proc}
    (succeeded : none ∈ attempts.head? → post (.ok (effect p.fds).1)
      ({ p with fds := (effect p.fds).2 }.record (event (.ok (effect p.fds).1))))
    (failed : ∀ e, some e ∈ attempts.head? → post (.error e) (p.record (event (.error e))))
    (blocked : attempts.head? = none → exit .blocked p) :
    Program.Ensures (once (syscall event effect) attempts) p post exit := by
  cases attempts with
  | nil => exact blocked rfl
  | cons attempt rest =>
    rw [once, ensures_syscall]
    exact ⟨fun e same => failed e (by simp [same]), fun same => succeeded (by simp [same])⟩

end Rules

end OmniaJit.FfiExt
