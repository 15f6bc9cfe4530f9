import OmniaJit.FfiExt
import OmniaJit.Lua.FileRead

/-! # `exec.spawn`

The function as the source has it, from the four pipes to the final return. The same program is
run by both processes after `fork`: the child takes the branch of a zero pid and ends in `_exit`
or with its image replaced, the parent takes the other one.
-/

namespace OmniaJit.Exec

open OmniaJit.Machine OmniaJit.FfiExt

/-- The arguments of `exec.spawn`; `env` is in the order `pairs` visits it. -/
structure Args where
  exe : String
  args : List String := []
  env : List (String × String) := []
  cwd : Option String := none
  stdin : Option Bytes := none
  stdout : Option Target := none
  stderr : Option Target := none
  ignore : Bool := false
  errexit : Bool := false

/-- Read end and write end of each pipe, `p[0]` and `p[1]`. -/
structure Pipes where
  stdin : Fd × Fd
  stdout : Fd × Fd
  stderr : Fd × Fd
  errno : Fd × Fd
deriving DecidableEq

variable (env : Environment)

/-- `R.error = strerror(errno(), s)` and `return nil, R`. -/
def fail {α : Type} (s : String) (R : Result) : M α := do
  let e ← errno
  throw (.returned none { R with error := some (strerror env e s) })

/-- One `pipe(2)` with its early return, which gives back none of the pipes before it. -/
def openPipe (name : PipeName) (s : String) : M (Fd × Fd) := do
  match ← once (C.pipe name) (env.attempts (.pipe name)) with
  | .error _ => fail env s {}
  | .ok p => pure p

def openPipes : M Pipes := do
  let p_stdin ← openPipe env .stdin "pipe(2) for STDIN failed"
  let p_stdout ← openPipe env .stdout "pipe(2) for STDOUT failed"
  let p_stderr ← openPipe env .stderr "pipe(2) for STDERR failed"
  let p_errno ← openPipe env .errno "pipe(2) for errno pipe failed"
  pure { stdin := p_stdin, stdout := p_stdout, stderr := p_stderr, errno := p_errno }

/-- `FD_CLOEXEC` on the write end of the errno pipe. The result of `F_GETFD` is not tested. -/
def closeOnExec (p : Pipes) : M Unit := do
  let _flags ← retry (C.getfd p.errno.2) (env.attempts .getfd)
  match ← retry (C.setfd p.errno.2) (env.attempts .setfd) with
  | .error _ => fail env "fcntl(2) for errno pipe failed" {}
  | .ok _ => pure ()

/-- The four bytes of a C `int`, least significant first. -/
def int (n : ℕ) : Bytes :=
  [n.toUInt8, (n >>> 8).toUInt8, (n >>> 16).toUInt8, (n >>> 24).toUInt8]

/-- `local err = int(1, errno())`, written to the errno pipe, and `_exit(0)`. -/
def childFailed {α : Type} (p : Pipes) : M α := do
  let e ← errno
  let _ ← retry (C.write p.errno.2 (int e) 4) (env.attempts .errnoWrite)
  throw .exited

/-- `redirect`. The two stream branches name the descriptors themselves; whatever is left, also a
stream redirected to its own descriptor, goes to the file branch. -/
def redirect (io_or_filename : Target) (dest_fd : Fd) : M (Except String Unit) := do
  if io_or_filename.names .stdout ∧ dest_fd ≠ STDOUT then
    match ← retry (C.dup2 STDERR STDOUT) (env.attempts (.dup2 dest_fd)) with
    | .error e => pure (.error (strerror env e "dup2(2) failed"))
    | .ok _ => pure (.ok ())
  else if io_or_filename.names .stderr ∧ dest_fd ≠ STDERR then
    match ← retry (C.dup2 STDOUT STDERR) (env.attempts (.dup2 dest_fd)) with
    | .error e => pure (.error (strerror env e "dup2(2) failed"))
    | .ok _ => pure (.ok ())
  else match io_or_filename with
    -- these do not convert to `const char *`, a file handle does
    | .number _ | .value => throw .raised
    | target => do
      match ← FfiExt.open env target dest_fd with
      | .error e => pure (.error (strerror env e "open(2) failed"))
      | .ok fd =>
        match ← retry (C.dup2 fd dest_fd) (env.attempts (.dup2 dest_fd)) with
        | .error e => do
          C.close fd
          pure (.error (strerror env e "dup2(2) failed"))
        | .ok _ => do
          C.close fd
          pure (.ok ())

/-- Descriptor `dest_fd` of the child: redirected if the option is given, else the write end of
its pipe. -/
def connect (p : Pipes) (target : Option Target) (writer dest_fd : Fd) : M Unit := do
  match target with
  | some target =>
    match ← redirect env target dest_fd with
    | .error _ => childFailed env p
    | .ok _ => pure ()
  | none =>
    match ← retry (C.dup2 writer dest_fd) (env.attempts (.dup2 dest_fd)) with
    | .error _ => childFailed env p
    | .ok _ => pure ()

def connectStdin (p : Pipes) (stdin : Option Bytes) : M Unit := do
  match stdin with
  | some _ =>
    match ← retry (C.dup2 p.stdin.1 STDIN) (env.attempts (.dup2 STDIN)) with
    | .error _ => childFailed env p
    | .ok _ => pure ()
  | none => pure ()

/-- `setenv` for every pair, stopping at the first failure. -/
def setenvs (p : Pipes) : ℕ → List (String × String) → M Unit
  | _, [] => pure ()
  | index, (name, value) :: rest => do
    match ← once (C.setenv name value) (env.attempts (.setenv index)) with
    | .error _ => childFailed env p
    | .ok _ => setenvs p (index + 1) rest

def changeDirectory (p : Pipes) (cwd : Option String) : M Unit := do
  match cwd with
  | some path =>
    match ← once (C.chdir path) (env.attempts .chdir) with
    | .error _ => childFailed env p
    | .ok _ => pure ()
  | none => pure ()

/-- The pipe ends the child closes, by number, just before `execv`. -/
def childCloses (p : Pipes) : M Unit := do
  C.close p.stdin.2
  C.close p.stdout.1
  C.close p.stderr.1
  C.close p.errno.1
  C.close p.stdin.1
  C.close p.stdout.2
  C.close p.stderr.2

/-- The branch of a zero pid. -/
def child (a : Args) (p : Pipes) : M (Option ℕ × Result) := do
  connectStdin env p a.stdin
  connect env p a.stdout p.stdout.2 STDOUT
  connect env p a.stderr p.stderr.2 STDERR
  setenvs env p 0 a.env
  changeDirectory env p a.cwd
  childCloses p
  match ← retry (C.execv a.exe (a.exe :: a.args)) (env.attempts .execv) with
  | .ok _ => throw .replaced
  | .error _ => childFailed env p

/-- The write of the stdin string, one `write(2)` whose count is not looked at. -/
def sendStdin (p : Pipes) (stdin : Option Bytes) : M Unit := do
  match stdin with
  | some s =>
    match ← retry (C.write p.stdin.2 s env.stdinCount) (env.attempts .stdinWrite) with
    | .error e => throw (.returned none { error := some (strerror env e "write(2) failed") })
    | .ok _ => C.close p.stdin.2
  | none => C.close p.stdin.2

/-- Learn whether `execv` happened. The number read is only compared with zero; the errno the
child sent is not used. -/
def readErrno (p : Pipes) : M Unit := do
  C.close p.errno.2
  let n ← retry (C.read p.errno.1 env.errnoCount) (env.attempts .errnoRead)
  C.close p.errno.1
  match n with
  | .ok n => if n > 0 then fail env "exec failed" {} else pure ()
  | .error _ => pure ()

/-- `waitpid` and the exit status. -/
def reap (pid : ℕ) : M ℕ := do
  match ← retry (C.waitpid pid env.status) (env.attempts .waitpid) with
  | .error e => throw (.returned none { error := some (strerror env e "waitpid(2) failed") })
  | .ok status =>
    if status &&& 0x7f = 0 then pure ((status &&& 0xff00) >>> 8)
    else throw (.returned none { error := some "Killed." })

/-- The collector's read loop: `o` holds the finished lines, `s` the line being read. -/
def readLines (i : Fd) : List (Except Errno (Option Byte)) → List Bytes → Bytes → M (List Bytes)
  | [], _, _ => throw .blocked
  | on :: rest, o, s => do
    modify (·.record (.read i (on.map fun byte => byte.elim 0 fun _ => 1)))
    match on with
    | .error e =>
      if Transient e then readLines i rest o s
      else do
        C.close i
        pure (o ++ [s])
    | .ok (some c) =>
      if c ≠ Lua.newline then readLines i rest o (s ++ [c]) else readLines i rest (o ++ [s]) []
    | .ok none => do
      C.close i
      pure (o ++ [s])

/-- `output(i, o)`: make the descriptor non-blocking, then collect its lines. -/
def output (i : Fd) (stream : Stream) : M (Except String (List Bytes)) := do
  let _oflags ← once (C.getfl i) (env.attempts (.getfl stream))
  match ← retry (C.setfl i) (env.attempts (.setfl stream)) with
  | .error _ => return .error (strerror env (← errno) "fcntl(2) failed")
  | .ok _ => return .ok (← readLines i (env.output stream) [] [])

/-- Collect one stream. The descriptor is closed here as well. -/
def collect (i : Fd) (stream : Stream) (R : Result) : M (List Bytes) := do
  let sr ← output env i stream
  C.close i
  match sr with
  | .error se => throw (.returned none { R with error := some se })
  | .ok o => pure o

/-- The last conditional of the function. -/
def finish (a : Args) (pid ret : ℕ) (R : Result) : M (Option ℕ × Result) :=
  if ret = 0 ∨ a.ignore then pure (some pid, R)
  else if a.errexit then throw (.panicked R)
  else pure (none, R)

/-- The branch of a positive pid. -/
def parent (a : Args) (p : Pipes) (pid : ℕ) : M (Option ℕ × Result) := do
  C.close p.stdin.1
  C.close p.stdout.2
  C.close p.stderr.2
  sendStdin env p a.stdin
  readErrno env p
  let ret ← reap env pid
  let stdout ← collect env p.stdout.1 .stdout { code := some ret }
  let stderr ← collect env p.stderr.1 .stderr { stdout := stdout, code := some ret }
  finish a pid ret { stdout := stdout, stderr := stderr, code := some ret }

def spawn (a : Args) : M (Option ℕ × Result) := do
  let p ← openPipes env
  closeOnExec env p
  match ← retry (C.fork env.pid) (env.attempts .fork) with
  | .error _ => fail env "fork(2) failed" {}
  | .ok pid => if pid = 0 then child env a p else parent env a p pid

/-- A run of `spawn` from a process state: how it ends, and the state it ends in. -/
def run (a : Args) (before : Proc) : Exit × Proc :=
  match spawn env a before with
  | .ok (pid, R) after => (.returned pid R, after)
  | .error exit after => (exit, after)

end OmniaJit.Exec
