import OmniaJit.Machine.Program
import OmniaJit.Posix.DescriptorTable
import Mathlib.Data.Nat.Bitwise

/-! # The system calls of `exec.spawn`

One process is its descriptor table, its `errno` and the calls it has made so far. Whether a
call succeeds is the environment's choice, recorded beforehand for every place in the code that
makes a call; what a successful call does to the table is fixed here. `fork` duplicates the whole
state, so parent and child are two runs of the same program that differ in the number `fork`
returns.
-/

namespace OmniaJit.Exec

open OmniaJit.Machine OmniaJit.Posix

abbrev Errno := ℕ
abbrev Fd := ℕ
abbrev Byte := UInt8
abbrev Bytes := List Byte

/-- Interrupted system call. -/
def EINTR : Errno := 4
/-- Try again. -/
def EAGAIN : Errno := 11
/-- Bad file descriptor. -/
def EBADF : Errno := 9

def STDIN : Fd := 0
def STDOUT : Fd := 1
def STDERR : Fd := 2

/-- The four `int[2]` arrays of one call. -/
inductive PipeName where
  | stdin | stdout | stderr | errno
deriving DecidableEq, Repr

/-- Element 0 of a pipe array is the read end, element 1 the write end. -/
inductive Side where
  | read | write
deriving DecidableEq, Repr

/-- The two output streams a child can have redirected. -/
inductive Stream where
  | stdout | stderr
deriving DecidableEq, Repr

def Stream.fd : Stream → Fd
  | .stdout => STDOUT
  | .stderr => STDERR

/-- A redirection option: `io.stdout` or `io.stderr`, a number, a file name, another file handle, or
another value. -/
inductive Target where
  | io (stream : Stream)
  | number (n : ℕ)
  | filename (name : String)
  | handle (id : ℕ)
  | value
deriving DecidableEq, Repr

/-- The test `io_or_filename == io.stdout or io_or_filename == STDOUT`, for either stream. -/
def Target.names (target : Target) (stream : Stream) : Bool :=
  target = .io stream || target = .number stream.fd

/-- An open file: one the process had before the call, an end of one of the call's pipes, or a
file opened for redirection to `dest`. -/
inductive File where
  | outer (id : ℕ)
  | pipeEnd (name : PipeName) (side : Side)
  | opened (target : Target) (dest : Fd)
deriving DecidableEq, Repr

def File.isPipe : File → Bool
  | .pipeEnd _ _ => true
  | _ => false

structure Descriptor where
  file : File
  cloexec : Bool := false
deriving DecidableEq, Repr

abbrev Table := DescriptorTable Descriptor

/-- Two new descriptors for the ends of a pipe, each the lowest free number in turn. -/
def Table.pipe (fds : Table) (name : PipeName) : (Fd × Fd) × Table :=
  let reader := fds.lowestFree
  let fds := fds.set reader { file := .pipeEnd name .read }
  let writer := fds.lowestFree
  ((reader, writer), fds.set writer { file := .pipeEnd name .write })

/-- Set the close-on-exec flag of an open descriptor. -/
def Table.setCloexec (fds : Table) (fd : Fd) : Table :=
  match fds.get fd with
  | some entry => fds.set fd { entry with cloexec := true }
  | none => fds

/-- `newfd` becomes a copy of `oldfd` without its close-on-exec flag; equal numbers change
nothing. -/
def Table.dup2 (fds : Table) (oldfd newfd : Fd) : Table :=
  match fds.get oldfd with
  | some entry => if oldfd = newfd then fds else fds.set newfd { file := entry.file }
  | none => fds

theorem Table.dup2_self {fds : Table} {oldfd newfd : Fd} {entry : Descriptor}
    (different : oldfd ≠ newfd) (found : fds.get oldfd = some entry) :
    (fds.dup2 oldfd newfd).get newfd = some { file := entry.file } := by
  simp only [Table.dup2, found, if_neg different, DescriptorTable.get_set_self]

theorem Table.dup2_of_ne {fds : Table} {oldfd newfd query : Fd} (other : query ≠ newfd) :
    (fds.dup2 oldfd newfd).get query = fds.get query := by
  simp only [Table.dup2]
  split
  · split_ifs
    · rfl
    · exact DescriptorTable.get_set_of_ne _ other _
  · rfl

theorem Table.dup2_occupied {fds : Table} {oldfd newfd query : Fd} (occupied : fds.get query ≠ none) :
    (fds.dup2 oldfd newfd).get query ≠ none := by
  simp only [Table.dup2]
  split
  · split_ifs
    · exact occupied
    · rw [DescriptorTable.get_set]
      split_ifs
      · exact Option.some_ne_none _
      · exact occupied
  · exact occupied

/-- What `execv` leaves of a table. -/
def Table.applyCloexec (fds : Table) : Table := fds.filter (fun entry => !entry.cloexec)

/-- One system call with its arguments and its result. -/
inductive Event where
  | pipe (name : PipeName) (result : Except Errno (Fd × Fd))
  | getfd (fd : Fd) (result : Except Errno Unit)
  | setfd (fd : Fd) (result : Except Errno Unit)
  | fork (result : Except Errno ℕ)
  | dup2 (oldfd newfd : Fd) (result : Except Errno Unit)
  | open (target : Target) (result : Except Errno Fd)
  | setenv (name value : String) (result : Except Errno Unit)
  | chdir (path : String) (result : Except Errno Unit)
  | execv (file : String) (argv : List String) (result : Except Errno Unit)
  | write (fd : Fd) (bytes : Bytes) (result : Except Errno ℕ)
  | read (fd : Fd) (result : Except Errno ℕ)
  | waitpid (pid : ℕ) (result : Except Errno ℕ)
  | getfl (fd : Fd) (result : Except Errno Unit)
  | setfl (fd : Fd) (result : Except Errno Unit)
  | close (fd : Fd) (result : Except Errno Unit)

def errorOf {α : Type} : Except Errno α → Option Errno
  | .error e => some e
  | .ok _ => none

/-- The errno a call sets, if it fails. -/
def Event.error? : Event → Option Errno
  | .pipe _ result => errorOf result
  | .getfd _ result => errorOf result
  | .setfd _ result => errorOf result
  | .fork result => errorOf result
  | .dup2 _ _ result => errorOf result
  | .open _ result => errorOf result
  | .setenv _ _ result => errorOf result
  | .chdir _ result => errorOf result
  | .execv _ _ result => errorOf result
  | .write _ _ result => errorOf result
  | .read _ result => errorOf result
  | .waitpid _ result => errorOf result
  | .getfl _ result => errorOf result
  | .setfl _ result => errorOf result
  | .close _ result => errorOf result

/-- The process that runs `exec.spawn`, with every call it has made, oldest first. -/
structure Proc where
  fds : Table
  errno : Errno
  events : List Event

/-- Log a call. Only a failing call touches `errno`. -/
def Proc.record (p : Proc) (event : Event) : Proc :=
  { p with errno := event.error?.getD p.errno, events := p.events ++ [event] }

/-- Close a number. This fails exactly when the number is not open. -/
def Proc.close (p : Proc) (fd : Fd) : Proc :=
  { p with fds := p.fds.close fd }.record
    (.close fd (if p.fds.get fd = none then .error EBADF else .ok ()))

@[simp] theorem Proc.record_fds (p : Proc) (event : Event) : (p.record event).fds = p.fds := rfl

@[simp] theorem Proc.record_events (p : Proc) (event : Event) :
    (p.record event).events = p.events ++ [event] := rfl

@[simp] theorem Proc.record_errno (p : Proc) (event : Event) :
    (p.record event).errno = event.error?.getD p.errno := rfl

@[simp] theorem Proc.close_fds (p : Proc) (fd : Fd) : (p.close fd).fds = p.fds.close fd := rfl

theorem Proc.close_events (p : Proc) (fd : Fd) : (p.close fd).events =
    p.events ++ [.close fd (if p.fds.get fd = none then .error EBADF else .ok ())] := rfl

theorem Proc.close_errno {p : Proc} {fd : Fd} (opened : p.fds.get fd ≠ none) :
    (p.close fd).errno = p.errno := by
  simp [Proc.close, opened, Event.error?, errorOf]

/-- The table `R` of the source. -/
structure Result where
  stdout : List Bytes := []
  stderr : List Bytes := []
  code : Option ℕ := none
  error : Option String := none
deriving DecidableEq

/-- How a run of `exec.spawn` ends. -/
inductive Exit where
  /-- `return pid, R`, or `return nil, R` with no pid. -/
  | returned (pid : Option ℕ) (R : Result)
  /-- `panic`, which ends the program with `os.exit(1)`. -/
  | panicked (R : Result)
  /-- The child's `_exit(0)`. -/
  | exited
  /-- The child's image has been replaced. -/
  | replaced
  /-- A Lua error leaves the function. -/
  | raised
  /-- A call or a retry loop never comes back. -/
  | blocked
deriving DecidableEq

abbrev M := Program Exit Proc

/-- The places of the source that make a call which may fail. -/
inductive Site where
  | pipe (name : PipeName)
  | getfd | setfd | fork
  | dup2 (dest : Fd)
  | open (dest : Fd)
  | setenv (index : ℕ)
  | chdir | execv | errnoWrite
  | stdinWrite | errnoRead | waitpid
  | getfl (stream : Stream)
  | setfl (stream : Stream)
deriving DecidableEq

/-- Everything outside the function: the fate of every attempt at every place, in order (`none`
is a success), the numbers successful calls return, the one-byte reads of either output pipe
(`none` is end of file), and the C library's error texts. -/
structure Environment where
  attempts : Site → List (Option Errno)
  pid : ℕ
  stdinCount : ℕ
  errnoCount : ℕ
  status : ℕ
  output : Stream → List (Except Errno (Option Byte))
  strerror : Errno → String

/-- A call that fails as told, or has its effect on the descriptor table. -/
def syscall {α : Type} (event : Except Errno α → Event) (effect : Table → α × Table) :
    Option Errno → M (Except Errno α)
  | some e => fun p => .ok (.error e) (p.record (event (.error e)))
  | none => fun p =>
      let (value, fds) := effect p.fds
      .ok (.ok value) ({ p with fds := fds }.record (event (.ok value)))

namespace C

def pipe (name : PipeName) : Option Errno → M (Except Errno (Fd × Fd)) :=
  syscall (Event.pipe name) fun fds => fds.pipe name

def getfd (fd : Fd) : Option Errno → M (Except Errno Unit) :=
  syscall (Event.getfd fd) fun fds => ((), fds)

/-- `fcntl(fd, F_SETFD, flags)` where `flags` has `FD_CLOEXEC` set, also when they were read as
`-1`. -/
def setfd (fd : Fd) : Option Errno → M (Except Errno Unit) :=
  syscall (Event.setfd fd) fun fds => ((), fds.setCloexec fd)

def fork (pid : ℕ) : Option Errno → M (Except Errno ℕ) :=
  syscall Event.fork fun fds => (pid, fds)

def dup2 (oldfd newfd : Fd) : Option Errno → M (Except Errno Unit) :=
  syscall (Event.dup2 oldfd newfd) fun fds => ((), fds.dup2 oldfd newfd)

def «open» (target : Target) (dest : Fd) : Option Errno → M (Except Errno Fd) :=
  syscall (Event.open target) fun fds =>
    (fds.lowestFree, fds.set fds.lowestFree { file := .opened target dest })

def setenv (name value : String) : Option Errno → M (Except Errno Unit) :=
  syscall (Event.setenv name value) fun fds => ((), fds)

def chdir (path : String) : Option Errno → M (Except Errno Unit) :=
  syscall (Event.chdir path) fun fds => ((), fds)

def execv (file : String) (argv : List String) : Option Errno → M (Except Errno Unit) :=
  syscall (Event.execv file argv) fun fds => ((), fds)

/-- A write may take any number of bytes up to the requested length. -/
def write (fd : Fd) (bytes : Bytes) (count : ℕ) : Option Errno → M (Except Errno ℕ) :=
  syscall (Event.write fd bytes) fun fds => (min count bytes.length, fds)

def read (fd : Fd) (count : ℕ) : Option Errno → M (Except Errno ℕ) :=
  syscall (Event.read fd) fun fds => (count, fds)

def waitpid (pid status : ℕ) : Option Errno → M (Except Errno ℕ) :=
  syscall (Event.waitpid pid) fun fds => (status, fds)

def getfl (fd : Fd) : Option Errno → M (Except Errno Unit) :=
  syscall (Event.getfl fd) fun fds => ((), fds)

def setfl (fd : Fd) : Option Errno → M (Except Errno Unit) :=
  syscall (Event.setfl fd) fun fds => ((), fds)

/-- The source never looks at the result of `close`. -/
def close (fd : Fd) : M Unit := fun p => .ok () (p.close fd)

end C

/-- The two ways a call goes, as one postcondition. -/
theorem ensures_syscall {α : Type} (event : Except Errno α → Event) (effect : Table → α × Table)
    (failure : Option Errno) (p : Proc) (post : Except Errno α → Proc → Prop)
    (exit : Exit → Proc → Prop) :
    Program.Ensures (syscall event effect failure) p post exit ↔
      (∀ e, failure = some e → post (.error e) (p.record (event (.error e)))) ∧
      (failure = none → post (.ok (effect p.fds).1)
        ({ p with fds := (effect p.fds).2 }.record (event (.ok (effect p.fds).1)))) := by
  cases failure with
  | none => simp [Program.Ensures, syscall]
  | some e => simp [Program.Ensures, syscall]

@[simp] theorem ensures_close (fd : Fd) (p : Proc) (post : Unit → Proc → Prop)
    (exit : Exit → Proc → Prop) :
    Program.Ensures (C.close fd) p post exit ↔ post () (p.close fd) := Iff.rfl

end OmniaJit.Exec
