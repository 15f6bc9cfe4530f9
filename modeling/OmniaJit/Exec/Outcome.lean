import Mathlib.Data.List.TakeWhile
import OmniaJit.Exec.Setup
import OmniaJit.Machine.Interleaving

/-! # Both processes of one call

An assignment fixes the fate of every call of `exec.spawn` in parent and child. The child's run
decides what the parent finds on the errno pipe and in the wait status; the calls of both after
`fork` may be made in any order relative to each other.
-/

namespace OmniaJit.Exec

open OmniaJit.Machine OmniaJit.Posix OmniaJit.FfiExt

/-- Success or failure for every call, with the data that successful calls return. No failure is
one that `retry` repeats. `status` is the wait status of the program that replaces the child, and
every output stream is a list of bytes that ends with end of file or a failing read. -/
structure Assignment where
  fate : Site → Option Errno
  pid : ℕ
  stdinCount : ℕ
  status : ℕ
  bytes : Stream → Bytes
  ending : Stream → Option Errno
  strerror : Errno → String
  lasting : ∀ site e, fate site = some e → ¬ Transient e
  ends : ∀ stream e, ending stream = some e → ¬ Transient e
  forked : 0 < pid

/-- The reads of one output stream. -/
def Assignment.reads (s : Assignment) (stream : Stream) : List (Except Errno (Option Byte)) :=
  (s.bytes stream).map (fun byte => .ok (some byte)) ++
    [match s.ending stream with
      | some e => .error e
      | none => .ok none]

/-- What one of the two processes sees. -/
def Assignment.environment (s : Assignment) (pid errnoCount status : ℕ) : Environment where
  attempts site := [s.fate site]
  pid := pid
  stdinCount := s.stdinCount
  errnoCount := errnoCount
  status := status
  output := s.reads
  strerror := s.strerror

/-- The child's run. -/
def Assignment.child (s : Assignment) (a : Args) (before : Proc) : Exit × Proc :=
  run (s.environment 0 0 0) a before

/-- The child has put its errno into the pipe. -/
def Assignment.Reports (s : Assignment) (a : Args) (before : Proc) : Prop :=
  (s.child a before).1 = .exited ∧ s.fate .errnoWrite = none

instance (s : Assignment) (a : Args) (before : Proc) : Decidable (s.Reports a before) :=
  inferInstanceAs (Decidable (_ ∧ _))

/-- The wait status of the child. -/
def Assignment.waitStatus (s : Assignment) (a : Args) (before : Proc) : ℕ :=
  if (s.child a before).1 = .exited then 0 else s.status

/-- What the parent sees: the four bytes of an `int` if the child reports, else end of file. -/
def Assignment.parentEnvironment (s : Assignment) (a : Args) (before : Proc) : Environment :=
  s.environment s.pid (if s.Reports a before then 4 else 0) (s.waitStatus a before)

/-- The parent's run. -/
def Assignment.parent (s : Assignment) (a : Args) (before : Proc) : Exit × Proc :=
  run (s.parentEnvironment a before) a before

/-- The errno of a failing call other than `close`. -/
def Event.failure? : Event → Option Errno
  | .close _ _ => none
  | event => event.error?

/-- The call that makes two processes out of one. -/
def Event.forks : Event → Bool
  | .fork (.ok _) => true
  | _ => false

def beforeFork (events : List Event) : List Event := events.takeWhile fun event => !event.forks

def afterFork (events : List Event) : List Event :=
  (events.dropWhile fun event => !event.forks).tail

/-- The errno of the call that failed first. -/
def firstFailure (log : List Event) : Option Errno := log.findSome? Event.failure?

/-- A log of the whole call. `childFirst` tells whose first failure after `fork` comes first in it. -/
def Assignment.Log (s : Assignment) (a : Args) (before : Proc) (childFirst : Bool) (log : List Event) : Prop :=
  let parent := afterFork (s.parent a before).2.events
  let child := afterFork (s.child a before).2.events
  ∃ later, Interleaved parent child later ∧
    (firstFailure later =
      if childFirst then (firstFailure child).or (firstFailure parent)
      else (firstFailure parent).or (firstFailure child)) ∧
    log = beforeFork (s.parent a before).2.events ++ later

/-- The messages of the errors `spawn` returns in the parent. -/
def messages : List String :=
  ["pipe(2) for STDIN failed", "pipe(2) for STDOUT failed", "pipe(2) for STDERR failed",
    "pipe(2) for errno pipe failed", "fcntl(2) for errno pipe failed", "fork(2) failed",
    "write(2) failed", "exec failed", "waitpid(2) failed", "fcntl(2) failed"]

/-- The call returns `(nil, R)`, with an error built from the text of `e`. -/
def Blames (strerror : Errno → String) (e : Errno) (exit : Exit) : Prop :=
  ∃ R, exit = .returned none R ∧ ∃ s ∈ messages, R.error = some (s ++ ": " ++ strerror e)

/-- A status word of a normal exit. -/
def Normal (status : ℕ) : Prop := status &&& 0x7f = 0

instance (status : ℕ) : Decidable (Normal status) := inferInstanceAs (Decidable (_ = _))

def exitStatus (status : ℕ) : ℕ := (status &&& 0xff00) >>> 8

/-- The call has the exit code `code` and no error, also when it ends in a panic over it. -/
def Completes (code : ℕ) (exit : Exit) : Prop :=
  ∃ R, (exit = .panicked R ∨ ∃ pid, exit = .returned pid R) ∧ R.code = some code ∧ R.error = none

/-- The call reports the first failure of its log, and the exit code if there is none. -/
structure Assignment.Truthful (s : Assignment) (a : Args) (before : Proc) (log : List Event) :
    Prop where
  failure : ∀ e, firstFailure log = some e → Blames s.strerror e (s.parent a before).1
  success : firstFailure log = none → Normal (s.waitStatus a before) →
    Completes (exitStatus (s.waitStatus a before)) (s.parent a before).1

section Logs

/-- Whatever order the calls after `fork` are made in, the log is one of the call. -/
theorem Assignment.exists_log (s : Assignment) (a : Args) (before : Proc) {later : List Event}
    (both : Interleaved (afterFork (s.parent a before).2.events) (afterFork (s.child a before).2.events) later) :
    ∃ childFirst, s.Log a before childFirst (beforeFork (s.parent a before).2.events ++ later) := by
  rcases both.findSome?_eq Event.failure? with parent | child
  · exact ⟨false, later, both, parent, rfl⟩
  · exact ⟨true, later, both, child, rfl⟩

/-- The calls made since the process was `q` are logged, and this is the first failure among them. -/
def Logs (q after : Proc) (failure : Option Errno) : Prop :=
  ∃ events, after.events = q.events ++ events ∧ firstFailure events = failure

variable {q r after : Proc} {f g : Option Errno}

theorem Logs.refl (q : Proc) : Logs q q none := ⟨[], (List.append_nil _).symm, rfl⟩

theorem Logs.trans (first : Logs q r f) (rest : Logs r after g) : Logs q after (f.or g) := by
  obtain ⟨events, logged, rfl⟩ := first
  obtain ⟨later, logged', rfl⟩ := rest
  refine ⟨events ++ later, ?_, List.findSome?_append⟩
  rw [logged', logged, List.append_assoc]

/-- A call, whatever it does to the table. -/
theorem Logs.call (fds : Table) (event : Event) (fate : event.failure? = f) :
    Logs q ({ q with fds := fds }.record event) f := by
  refine ⟨[event], rfl, ?_⟩
  rw [firstFailure, List.findSome?_cons, fate]
  cases f <;> rfl

theorem Logs.record (logged : Logs q r f) (event : Event) (fate : event.failure? = g) :
    Logs q (r.record event) (f.or g) := logged.trans (Logs.call r.fds event fate)

theorem Logs.close (logged : Logs q r f) (fd : Fd) : Logs q (r.close fd) f := by
  rw [← Option.or_none (o := f)]
  exact logged.trans (Logs.call _ _ rfl)

/-- The process has not been forked, and this is the first failure so far. -/
def Unforked (q : Proc) (failure : Option Errno) : Prop :=
  (∀ event ∈ q.events, event.forks = false) ∧ firstFailure q.events = failure

theorem Unforked.call (unforked : Unforked q f) (fds : Table) {event : Event} (other : event.forks = false)
    (fate : event.failure? = g) : Unforked ({ q with fds := fds }.record event) (f.or g) := by
  obtain ⟨single, rfl⟩ := unforked
  constructor
  · intro event member
    rcases List.mem_append.mp member with earlier | last
    · exact single event earlier
    · rwa [List.mem_singleton.mp last]
  · rw [Proc.record_events, firstFailure, List.findSome?_append, List.findSome?_cons, fate]
    cases g <;> rfl

theorem Unforked.beforeFork (unforked : Unforked q f) : firstFailure (beforeFork q.events) = f := by
  have single : ∀ event ∈ q.events, (!event.forks) = true := fun event member => by
    rw [unforked.1 event member, Bool.not_false]
  rw [Exec.beforeFork, List.takeWhile_eq_self_iff.mpr single, unforked.2]

/-- The two parts of the log of a process that has been forked. -/
theorem Unforked.fork (unforked : Unforked q f) {pid : ℕ} (logs : Logs (q.record (.fork (.ok pid))) after g) :
    firstFailure (Exec.beforeFork after.events) = f ∧ firstFailure (afterFork after.events) = g := by
  obtain ⟨events, logged, rfl⟩ := logs
  have single : ∀ event ∈ q.events, (!event.forks) = true := fun event member => by
    rw [unforked.1 event member, Bool.not_false]
  rw [Proc.record_events, List.append_assoc] at logged
  rw [logged, Exec.beforeFork, afterFork, List.takeWhile_append_of_pos single, List.dropWhile_append_of_pos single]
  refine ⟨?_, rfl⟩
  rw [← unforked.2]
  exact congrArg firstFailure (List.append_nil _)

end Logs

end OmniaJit.Exec
