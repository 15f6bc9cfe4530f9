import Mathlib.Logic.Function.Basic
import OmniaJit.Exec.SystemCalls
import OmniaJit.Machine.Transition

/-! # Parent and child on bounded pipes

After `fork` the two processes share three pipes and the errno pipe. The parent makes its calls in
the fixed order of the source; the child runs an arbitrary program that reads its stdin and writes
its two outputs. A pipe holds at most `C` bytes. One step of the system is one byte moved by either
process, one read of the child, or the completion of a call.
-/

namespace OmniaJit.Exec

open OmniaJit.Machine

/-- The stretches of the parent's branch, in the order of the source. -/
inductive Phase where
  /-- Writing the stdin string. -/
  | writing
  /-- Reading the errno pipe. -/
  | readingErrno
  /-- In `waitpid`. -/
  | waiting
  /-- Collecting an output without blocking. -/
  | draining (stream : Stream)
  | returned
deriving DecidableEq, Repr

def Phase.rank : Phase → ℕ
  | .writing => 0
  | .readingErrno => 1
  | .waiting => 2
  | .draining .stdout => 3
  | .draining .stderr => 4
  | .returned => 5

/-- What a program does next to the streams it is connected to. -/
inductive Action (σ : Type) where
  /-- A read of at most `limit + 1` bytes; no bytes mean end of file. -/
  | read (limit : ℕ) (next : Bytes → σ)
  | write (stream : Stream) (byte : Byte) (next : σ)
  /-- Anything that touches none of the streams; how it ends is not the program's choice. -/
  | work (next : ℕ → σ)
  | exit

/-- The program that `execv` starts in the child. -/
structure ChildProgram (σ : Type) where
  start : σ
  action : σ → Action σ

/-- The child: still on its way to `execv`, running its program, or gone. A child that could not
execute its program has left its errno in the errno pipe. -/
inductive ChildState (σ : Type) where
  | starting
  | running (state : σ)
  | exited (errnoSent : Bool)

def ChildState.alive {σ : Type} : ChildState σ → Bool
  | .exited _ => false
  | _ => true

/-- Both processes and the contents of the three data pipes. -/
structure System (σ : Type) where
  phase : Phase
  /-- The part of the stdin string that is not in the pipe yet. -/
  unsent : Bytes
  child : ChildState σ
  stdin : Bytes
  output : Stream → Bytes

/-- Just after `fork`. -/
def System.initial {σ : Type} (s : Bytes) : System σ where
  phase := .writing
  unsent := s
  child := .starting
  stdin := []
  output _ := []

section Steps

variable {σ : Type} (C : ℕ) (program : ChildProgram σ)

/-- A step of the parent. -/
inductive ParentStep : System σ → System σ → Prop
  /-- One byte of the stdin string enters the pipe. -/
  | push {q : System σ} {byte : Byte} {rest : Bytes} (phase : q.phase = .writing)
      (unsent : q.unsent = byte :: rest) (space : q.stdin.length < C) (alive : q.child.alive) :
      ParentStep q { q with unsent := rest, stdin := q.stdin ++ [byte] }
  /-- The string is written; the write end of the pipe is closed. -/
  | closeStdin {q : System σ} (phase : q.phase = .writing) (unsent : q.unsent = []) :
      ParentStep q { q with phase := .readingErrno }
  /-- The reader of the pipe is gone before any byte was taken: `EPIPE`. -/
  | brokenPipe {q : System σ} (phase : q.phase = .writing) (unsent : q.unsent ≠ [])
      (gone : q.child.alive = false) : ParentStep q { q with phase := .returned }
  /-- The reader of the pipe is gone after some bytes were taken: a short count. -/
  | shortWrite {q : System σ} (phase : q.phase = .writing) (unsent : q.unsent ≠ [])
      (gone : q.child.alive = false) : ParentStep q { q with phase := .readingErrno }
  /-- End of file on the errno pipe: `execv` has closed its last write end, or the child is gone. -/
  | errnoClosed {q : System σ} (phase : q.phase = .readingErrno) (left : q.child ≠ .starting)
      (silent : q.child ≠ .exited true) : ParentStep q { q with phase := .waiting }
  /-- The child has sent its errno. -/
  | errnoRead {q : System σ} (phase : q.phase = .readingErrno) (sent : q.child = .exited true) :
      ParentStep q { q with phase := .returned }
  /-- `waitpid` returns a normal exit. -/
  | reap {q : System σ} (phase : q.phase = .waiting) (gone : q.child.alive = false) :
      ParentStep q { q with phase := .draining .stdout }
  /-- `waitpid` returns a child that was killed. -/
  | killed {q : System σ} (phase : q.phase = .waiting) (gone : q.child.alive = false) :
      ParentStep q { q with phase := .returned }
  /-- One byte is collected. -/
  | collect {q : System σ} {stream : Stream} {byte : Byte} {rest : Bytes}
      (phase : q.phase = .draining stream) (found : q.output stream = byte :: rest) :
      ParentStep q { q with output := Function.update q.output stream rest }
  /-- Stdout is at its end. -/
  | drained {q : System σ} (phase : q.phase = .draining .stdout) (empty : q.output .stdout = []) :
      ParentStep q { q with phase := .draining .stderr }
  /-- Stderr is at its end. -/
  | finish {q : System σ} (phase : q.phase = .draining .stderr) (empty : q.output .stderr = []) :
      ParentStep q { q with phase := .returned }

/-- A step of the child. -/
inductive ChildStep : System σ → System σ → Prop
  | execv {q : System σ} (starting : q.child = .starting) :
      ChildStep q { q with child := .running program.start }
  /-- A call before or at `execv` fails; the child sends its errno and leaves. -/
  | failed {q : System σ} (starting : q.child = .starting) :
      ChildStep q { q with child := .exited true }
  /-- A read takes what there is, up to its limit. -/
  | read {q : System σ} {state : σ} {limit : ℕ} {next : Bytes → σ}
      (running : q.child = .running state) (action : program.action state = .read limit next)
      (available : q.stdin ≠ []) :
      ChildStep q { q with child := .running (next (q.stdin.take (limit + 1))),
                           stdin := q.stdin.drop (limit + 1) }
  /-- End of file: the pipe is empty and its write end closed. -/
  | readEnd {q : System σ} {state : σ} {limit : ℕ} {next : Bytes → σ}
      (running : q.child = .running state) (action : program.action state = .read limit next)
      (empty : q.stdin = []) (closed : q.phase ≠ .writing) :
      ChildStep q { q with child := .running (next []) }
  | write {q : System σ} {state next : σ} {stream : Stream} {byte : Byte}
      (running : q.child = .running state) (action : program.action state = .write stream byte next)
      (space : (q.output stream).length < C) :
      ChildStep q { q with child := .running next,
                           output := Function.update q.output stream (q.output stream ++ [byte]) }
  | work {q : System σ} {state : σ} {next : ℕ → σ} (running : q.child = .running state)
      (action : program.action state = .work next) (choice : ℕ) :
      ChildStep q { q with child := .running (next choice) }
  | exit {q : System σ} {state : σ} (running : q.child = .running state)
      (action : program.action state = .exit) : ChildStep q { q with child := .exited false }

/-- The two processes take turns in any order. -/
def Step (q q' : System σ) : Prop := ParentStep C q q' ∨ ChildStep C program q q'

/-- The parent sits in a call that waits for the child. -/
structure ParentBlocked (q : System σ) : Prop where
  alive : q.child.alive
  waits : (q.phase = .writing ∧ q.unsent ≠ [] ∧ C ≤ q.stdin.length) ∨
    (q.phase = .readingErrno ∧ q.child = .starting) ∨ q.phase = .waiting

/-- The child sits in a call on a full or empty pipe of the parent. -/
inductive ChildBlocked (q : System σ) : Prop
  | read {state : σ} {limit : ℕ} {next : Bytes → σ} (running : q.child = .running state)
      (action : program.action state = .read limit next) (empty : q.stdin = [])
      (writer : q.phase = .writing)
  | write {state next : σ} {stream : Stream} {byte : Byte} (running : q.child = .running state)
      (action : program.action state = .write stream byte next)
      (full : C ≤ (q.output stream).length)

/-- Each process waits for the other. -/
structure Deadlock (q : System σ) : Prop where
  parent : ParentBlocked C q
  child : ChildBlocked C program q

/-- No run of the two processes on the stdin string `s` gets stuck. -/
def DeadlockFree (s : Bytes) : Prop :=
  ∀ q, Reachable (Step C program) (.initial s) q → ¬ Deadlock C program q

end Steps

section Lemmas

variable {σ : Type} {C : ℕ} {program : ChildProgram σ} {q q' : System σ}

theorem ParentStep.child_eq (step : ParentStep C q q') : q'.child = q.child := by
  cases step <;> rfl

theorem ParentBlocked.no_step (blocked : ParentBlocked C q) : ¬ ParentStep C q q' := by
  obtain ⟨alive, ⟨phase, unsent, full⟩ | ⟨phase, starting⟩ | phase⟩ := blocked
  · rintro (⟨_, _, space, _⟩ | ⟨_, sent⟩ | ⟨_, _, gone⟩ | ⟨_, _, gone⟩ | _ | _ | _ | _ | _ | _ | _) <;>
      simp_all
    omega
  · rintro (_ | _ | _ | _ | ⟨_, left, _⟩ | ⟨_, sent⟩ | _ | _ | _ | _ | _) <;> simp_all
  · rintro (_ | _ | _ | _ | _ | _ | ⟨_, gone⟩ | ⟨_, gone⟩ | _ | _ | _) <;> simp_all

theorem ChildBlocked.no_step (blocked : ChildBlocked C program q) : ¬ ChildStep C program q q' := by
  rcases blocked with ⟨running, action, empty, writer⟩ | ⟨running, action, full⟩
  · rintro (_ | _ | ⟨_, _, available⟩ | ⟨_, _, _, closed⟩ | _ | _ | _) <;> simp_all
  · rintro (_ | _ | _ | _ | ⟨_, _, space⟩ | _ | _) <;> simp_all
    omega

/-- A deadlock is final. -/
theorem Deadlock.no_step (deadlock : Deadlock C program q) : ¬ Step C program q q' := by
  rintro (step | step)
  · exact deadlock.parent.no_step step
  · exact deadlock.child.no_step step

/-- The parent only moves forward through its calls. -/
theorem Step.rank_le (step : Step C program q q') : q.phase.rank ≤ q'.phase.rank := by
  rcases step with step | step
  · cases step <;> simp_all [Phase.rank]
  · cases step <;> rfl

theorem rank_le_of_reachable (reached : Reachable (Step C program) q q') :
    q.phase.rank ≤ q'.phase.rank := by
  induction reached with
  | refl => exact le_rfl
  | tail _ last ih => exact ih.trans last.rank_le

end Lemmas

end OmniaJit.Exec
