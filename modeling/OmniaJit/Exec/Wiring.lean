import OmniaJit.Exec.Setup
import Mathlib.Order.Basic

/-! # The descriptors of the new image

With every call succeeding, the child's table at `execv` is a fixed function of the parent's. The
child closes its pipe ends by number after it has copied them to 0, 1 and 2, so an end that was
allocated as one of these numbers is taken away again. Which of them were allocated is decided by
which of them the parent had open.
-/

namespace OmniaJit.Exec

open OmniaJit.Machine OmniaJit.Posix OmniaJit.FfiExt

/-- Every call succeeds at its first attempt. -/
def Environment.Succeeds (env : Environment) : Prop :=
  ∀ site, (env.attempts site).head? = some none

/-- The closes before `execv`, on the table. -/
def Table.childCloses (fds : Table) (p : Pipes) : Table :=
  [p.stdin.2, p.stdout.1, p.stderr.1, p.errno.1, p.stdin.1, p.stdout.2, p.stderr.2].foldl
    DescriptorTable.close fds

/-- The child's table from `fork` to `execv`, with both output options nil. -/
def Table.childExec (fds : Table) (p : Pipes) (stdin : Option Bytes) : Table :=
  let fds := if stdin.isSome then fds.dup2 p.stdin.1 STDIN else fds
  ((fds.dup2 p.stdout.2 STDOUT).dup2 p.stderr.2 STDERR).childCloses p

/-- The table `fork` copies: the four pipes, with the write end of the errno pipe marked. -/
def Table.atFork (fds : Table) : Table := fds.pipes.2.setCloexec fds.pipes.1.errno.2

/-- The table `execv` runs with, from the parent's table before the call. -/
def Table.atExec (fds : Table) (stdin : Option Bytes) : Table :=
  fds.atFork.childExec fds.pipes.1 stdin

/-- A table in which nothing is an end of one of the call's pipes. -/
def Table.ofOuter (outer : DescriptorTable (ℕ × Bool)) : Table :=
  outer.map fun entry => { file := .outer entry.1, cloexec := entry.2 }

/-- Descriptors 0, 1 and 2 are what the child expects, and the new image holds no other end of a
pipe. -/
def Wired (stdin : Option Bytes) (before atExec : Table) : Prop :=
  (if stdin.isSome then atExec.get STDIN = some { file := .pipeEnd .stdin .read }
    else atExec.get STDIN = before.get STDIN) ∧
  atExec.get STDOUT = some { file := .pipeEnd .stdout .write } ∧
  atExec.get STDERR = some { file := .pipeEnd .stderr .write } ∧
  ∀ fd, fd ≠ STDIN → fd ≠ STDOUT → fd ≠ STDERR → ∀ entry, atExec.applyCloexec.get fd = some entry →
    entry.file.isPipe = false

section Run

variable {env : Environment} {exit : Exit → Proc → Prop}

theorem ensures_connectStdin (succeeds : env.Succeeds) (p : Pipes) (stdin : Option Bytes)
    (q : Proc) :
    Program.Ensures (connectStdin env p stdin) q
      (fun _ after => after.fds = if stdin.isSome then q.fds.dup2 p.stdin.1 STDIN else q.fds)
      exit := by
  cases stdin with
  | none => rfl
  | some s =>
    simp only [connectStdin, Program.ensures_bind, C.dup2]
    rw [ensures_retry_ok (succeeds _)]
    rfl

private theorem ensures_connect (succeeds : env.Succeeds) (p : Pipes) (writer dest_fd : Fd)
    (q : Proc) :
    Program.Ensures (connect env p none writer dest_fd) q
      (fun _ after => after.fds = q.fds.dup2 writer dest_fd) exit := by
  simp only [connect, Program.ensures_bind, C.dup2]
  rw [ensures_retry_ok (succeeds _)]
  rfl

theorem ensures_setenvs (succeeds : env.Succeeds) (p : Pipes) (index : ℕ)
    (pairs : List (String × String)) (q : Proc) :
    Program.Ensures (setenvs env p index pairs) q (fun _ after => after.fds = q.fds) exit := by
  induction pairs generalizing index q with
  | nil => rfl
  | cons pair rest ih =>
    simp only [setenvs, Program.ensures_bind, C.setenv]
    rw [ensures_once_ok (succeeds _)]
    exact ih (index + 1) _

theorem ensures_changeDirectory (succeeds : env.Succeeds) (p : Pipes) (cwd : Option String)
    (q : Proc) :
    Program.Ensures (changeDirectory env p cwd) q (fun _ after => after.fds = q.fds) exit := by
  cases cwd with
  | none => rfl
  | some path =>
    simp only [changeDirectory, Program.ensures_bind, C.chdir]
    rw [ensures_once_ok (succeeds _)]
    rfl

theorem ensures_childCloses (p : Pipes) (q : Proc) :
    Program.Ensures (childCloses p) q (fun _ after => after.fds = q.fds.childCloses p) exit := by
  simp only [childCloses, Program.ensures_bind, ensures_close]
  rfl

/-- The child's branch, on the table. -/
private theorem ensures_child (succeeds : env.Succeeds) {a : Args} (stdout : a.stdout = none)
    (stderr : a.stderr = none) (p : Pipes) (q : Proc)
    {post : Option ℕ × Result → Proc → Prop} :
    Program.Ensures (child env a p) q post
      (fun exit after => exit = .replaced ∧ after.fds = q.fds.childExec p a.stdin) := by
  simp only [child, stdout, stderr, Program.ensures_bind]
  refine (ensures_connectStdin succeeds p a.stdin q).mono (fun _ q₁ stdin => ?_) (fun _ _ way => way)
  refine (ensures_connect succeeds p _ _ q₁).mono (fun _ q₂ stdout => ?_) (fun _ _ way => way)
  refine (ensures_connect succeeds p _ _ q₂).mono (fun _ q₃ stderr => ?_) (fun _ _ way => way)
  refine (ensures_setenvs succeeds p 0 a.env q₃).mono (fun _ q₄ env => ?_) (fun _ _ way => way)
  refine (ensures_changeDirectory succeeds p a.cwd q₄).mono (fun _ q₅ cwd => ?_) (fun _ _ way => way)
  refine (ensures_childCloses p q₅).mono (fun _ q₆ closes => ?_) (fun _ _ way => way)
  rw [C.execv, ensures_retry_ok (succeeds _)]
  refine ⟨rfl, ?_⟩
  rw [Table.childExec, ← stdin, ← stdout, ← stderr, ← env, ← cwd, ← closes]
  rfl

/-- The child of a call in which nothing fails reaches `execv` with the computed table. -/
theorem run_child (succeeds : env.Succeeds) (isChild : env.pid = 0) {a : Args}
    (stdout : a.stdout = none) (stderr : a.stderr = none) (fds : Table) (e₀ : Errno) :
    (run env a (.start fds e₀)).1 = .replaced ∧
      (run env a (.start fds e₀)).2.fds = fds.atExec a.stdin := by
  apply run_of_ensures a (fun exit after => exit = .replaced ∧ after.fds = fds.atExec a.stdin)
  simp only [spawn, openPipes, openPipe, closeOnExec, Program.ensures_bind, C.pipe, C.getfd,
    C.setfd, C.fork]
  iterate 4 rw [ensures_once_ok (succeeds _), Program.ensures_pure]
  rw [Program.ensures_pure, ensures_retry_ok (succeeds _), ensures_retry_ok (succeeds _),
    Program.ensures_pure, ensures_retry_ok (succeeds _)]
  simp only [isChild, if_true]
  exact ensures_child succeeds stdout stderr _ _

end Run

section Table

variable {fds : Table} {fd : Fd}

theorem foldl_close_get (numbers : List Fd) (fds : Table) (fd : Fd) :
    (numbers.foldl DescriptorTable.close fds).get fd =
      if fd ∈ numbers then none else fds.get fd := by
  induction numbers generalizing fds with
  | nil => rfl
  | cons number rest ih =>
    rw [List.foldl_cons, ih, DescriptorTable.get_close]
    by_cases same : fd = number <;> simp [same]

/-- The numbers the child closes before `execv`: all of the call's but the errno pipe's write end. -/
def Pipes.childClosed (p : Pipes) : List Fd :=
  [p.stdin.2, p.stdout.1, p.stderr.1, p.errno.1, p.stdin.1, p.stdout.2, p.stderr.2]

theorem Pipes.mem_childClosed {p : Pipes} {fd : Fd} :
    fd ∈ p.childClosed ∨ fd = p.errno.2 ↔ fd ∈ p.all := by
  simp only [Pipes.childClosed, Pipes.all, List.mem_cons, List.not_mem_nil, or_false]
  tauto

/-- The table at `execv`, without the closes folded in. -/
theorem Table.atExec_get (fds : Table) (stdin : Option Bytes) (fd : Fd) :
    (fds.atExec stdin).get fd = if fd ∈ fds.pipes.1.childClosed then none else
      (((if stdin.isSome then fds.atFork.dup2 fds.pipes.1.stdin.1 STDIN else fds.atFork).dup2
        fds.pipes.1.stdout.2 STDOUT).dup2 fds.pipes.1.stderr.2 STDERR).get fd :=
  foldl_close_get _ _ _

/-- A number below 3 that was free before the call is closed before `execv`. -/
theorem Table.atExec_get_free {fds : Table} (stdin : Option Bytes) {fd : Fd} (low : fd ≤ STDERR)
    (free : fds.get fd = none) : (fds.atExec stdin).get fd = none := by
  have opened := fds.pipes_opened
  have above := opened.above
  have member : fd ∈ fds.pipes.1.all :=
    opened.taken.least _ (Pipes.fd_mem_all _ .stderr .read) fd (lt_of_le_of_lt low above.2.2.1) free
  rw [Table.atExec_get, if_pos]
  refine (Pipes.mem_childClosed.mpr member).resolve_right (fun last => ?_)
  exact absurd (last ▸ low) (not_le.mpr above.2.2.2.2)

/-- A number that was open is none of the call's. -/
theorem Table.not_mem_all {fds : Table} {fd : Fd} (occupied : fds.get fd ≠ none) :
    fd ∉ fds.pipes.1.all :=
  fun member => occupied (fds.pipes_opened.taken.fresh fd member)

theorem Table.atFork_end (fds : Table) (name : PipeName) (side : Side)
    (other : (name, side) ≠ (PipeName.errno, Side.write)) :
    fds.atFork.get (fds.pipes.1.fd name side) =
      some { file := .pipeEnd name side } := by
  have opened := fds.pipes_opened
  have different : fds.pipes.1.fd name side ≠ fds.pipes.1.errno.2 :=
    Pipes.fd_ne opened.nodup name side .errno .write other
  rw [Table.atFork, Table.setCloexec_of_ne different]
  exact opened.ends name side

theorem Table.atFork_errno (fds : Table) :
    fds.atFork.get fds.pipes.1.errno.2 =
      some { file := .pipeEnd .errno .write, cloexec := true } :=
  Table.setCloexec_self (fds.pipes_opened.ends .errno .write)

theorem Table.atFork_frame {fds : Table} {fd : Fd} (absent : fd ∉ fds.pipes.1.all) :
    fds.atFork.get fd = fds.get fd := by
  have different : fd ≠ fds.pipes.1.errno.2 :=
    fun same => absent (same ▸ Pipes.fd_mem_all _ .errno .write)
  rw [Table.atFork, Table.setCloexec_of_ne different, fds.pipes_opened.taken.frame fd absent]

section Wired

variable {fds : Table} {stdin : Option Bytes}

/-- Descriptor 0, when it needs no pipe or was open. -/
theorem Table.atExec_stdin (held : stdin.isSome → fds.get STDIN ≠ none) :
    (fds.atExec stdin).get STDIN =
      if stdin.isSome then some { file := .pipeEnd .stdin .read } else fds.get STDIN := by
  by_cases free : fds.get STDIN = none
  · rw [Table.atExec_get_free stdin (by decide) free, if_neg (fun given => held given free), free]
  · have absent := Table.not_mem_all free
    rw [Table.atExec_get, if_neg (fun member => absent (Pipes.mem_childClosed.mp (.inl member))),
      Table.dup2_of_ne (by decide), Table.dup2_of_ne (by decide)]
    split_ifs with given
    · have different : fds.pipes.1.stdin.1 ≠ STDIN :=
        fun same => absent (same ▸ Pipes.fd_mem_all _ .stdin .read)
      exact Table.dup2_self different (fds.atFork_end .stdin .read (by decide))
    · exact Table.atFork_frame absent

variable (stdin) in
/-- Copying the pipe of stdin to 0 hides nothing the child still needs. -/
theorem redirected_end (name : PipeName) (side : Side) (fd : Fd)
    (named : fds.pipes.1.fd name side = fd) (positive : STDIN < fd)
    (other : (name, side) ≠ (PipeName.errno, Side.write)) :
    (if stdin.isSome then fds.atFork.dup2 fds.pipes.1.stdin.1 STDIN else fds.atFork).get fd =
      some { file := .pipeEnd name side } := by
  have marked := named ▸ fds.atFork_end name side other
  split_ifs
  · rwa [Table.dup2_of_ne (Nat.ne_of_gt positive)]
  · exact marked

/-- Descriptor 1, when it was open. -/
theorem Table.atExec_stdout (occupied : fds.get STDOUT ≠ none) :
    (fds.atExec stdin).get STDOUT = some { file := .pipeEnd .stdout .write } := by
  have above := fds.pipes_opened.above
  have absent := Table.not_mem_all occupied
  have source := redirected_end stdin .stdout .write _ rfl (lt_trans (by decide) above.2.1)
    (by decide)
  have different : fds.pipes.1.stdout.2 ≠ STDOUT :=
    fun same => absent (same ▸ Pipes.fd_mem_all _ .stdout .write)
  rw [Table.atExec_get, if_neg (fun member => absent (Pipes.mem_childClosed.mp (.inl member))),
    Table.dup2_of_ne (by decide)]
  exact Table.dup2_self different source

/-- Descriptor 2, when it was open. -/
theorem Table.atExec_stderr (occupied : fds.get STDERR ≠ none) :
    (fds.atExec stdin).get STDERR = some { file := .pipeEnd .stderr .write } := by
  have above := fds.pipes_opened.above
  have absent := Table.not_mem_all occupied
  have source := redirected_end stdin .stderr .write _ rfl
    (lt_trans (by decide) above.2.2.2.1) (by decide)
  have different : fds.pipes.1.stderr.2 ≠ STDERR :=
    fun same => absent (same ▸ Pipes.fd_mem_all _ .stderr .write)
  rw [Table.atExec_get, if_neg (fun member => absent (Pipes.mem_childClosed.mp (.inl member)))]
  have apart : fds.pipes.1.stderr.2 ≠ STDOUT :=
    Nat.ne_of_gt (lt_trans (by decide) above.2.2.2.1)
  exact Table.dup2_self different ((Table.dup2_of_ne apart).trans source)

/-- No other descriptor of the new image is an end of a pipe. -/
theorem Table.atExec_others (outer : ∀ fd entry, fds.get fd = some entry → entry.file.isPipe = false)
    {fd : Fd} (stdin' : fd ≠ STDIN) (stdout : fd ≠ STDOUT) (stderr : fd ≠ STDERR)
    {entry : Descriptor} (found : (fds.atExec stdin).applyCloexec.get fd = some entry) :
    entry.file.isPipe = false := by
  rw [Table.applyCloexec, DescriptorTable.get_filter, Option.filter_eq_some_iff, Table.atExec_get] at found
  obtain ⟨found, kept⟩ := found
  split_ifs at found with closed given
  all_goals
    rw [Table.dup2_of_ne stderr, Table.dup2_of_ne stdout] at found
    try rw [Table.dup2_of_ne stdin'] at found
    by_cases member : fd ∈ fds.pipes.1.all
    · obtain rfl := (Pipes.mem_childClosed.mpr member).resolve_left closed
      rw [Table.atFork_errno] at found
      obtain rfl := Option.some.inj found
      simp at kept
    · exact outer fd entry (Table.atFork_frame member ▸ found)

end Wired

end Table

/-- In a call in which nothing fails, the child is wired as it should be exactly when 1 and 2 were
open in the parent, and 0 too if there is a stdin string to read. -/
theorem wired_iff (env : Environment) (a : Args) (outer : DescriptorTable (ℕ × Bool)) (e₀ : Errno)
    (succeeds : env.Succeeds) (isChild : env.pid = 0) (stdout : a.stdout = none)
    (stderr : a.stderr = none) :
    (run env a (.start (.ofOuter outer) e₀)).1 = .replaced ∧
    (Wired a.stdin (.ofOuter outer) (run env a (.start (.ofOuter outer) e₀)).2.fds ↔
      outer.get STDOUT ≠ none ∧ outer.get STDERR ≠ none ∧
        (a.stdin.isSome → outer.get STDIN ≠ none)) := by
  have ran := run_child succeeds isChild stdout stderr (.ofOuter outer) e₀
  refine ⟨ran.1, ?_⟩
  rw [ran.2]
  have opens (fd : Fd) : (Table.ofOuter outer).get fd = none ↔ outer.get fd = none := by
    rw [Table.ofOuter, DescriptorTable.get_map, Option.map_eq_none_iff]
  simp only [ne_eq, ← opens]
  constructor
  · rintro ⟨stdin, out, err, -⟩
    refine ⟨fun free => ?_, fun free => ?_, fun given free => ?_⟩
    · rw [Table.atExec_get_free _ (by decide) free] at out
      contradiction
    · rw [Table.atExec_get_free _ le_rfl free] at err
      contradiction
    · rw [if_pos given, Table.atExec_get_free _ (by decide) free] at stdin
      contradiction
  · rintro ⟨out, err, held⟩
    refine ⟨?_, Table.atExec_stdout out, Table.atExec_stderr err, ?_⟩
    · split_ifs with given
      · rw [Table.atExec_stdin held, if_pos given]
      · rw [Table.atExec_stdin held, if_neg given]
    · intro fd stdin' stdout' stderr' entry found
      refine Table.atExec_others (fun fd entry found => ?_) stdin' stdout' stderr' found
      rw [Table.ofOuter, DescriptorTable.get_map, Option.map_eq_some_iff] at found
      obtain ⟨file, -, rfl⟩ := found
      rfl

/-- The child of a call in which all goes well. -/
def Environment.quietChild : Environment := { Environment.quiet with pid := 0 }

theorem Environment.quietChild_succeeds : Environment.quietChild.Succeeds := fun _ => rfl

/-- A parent that was started with its stdout closed. -/
def withoutStdout : DescriptorTable (ℕ × Bool) where
  get fd := if fd = STDIN ∨ fd = STDERR then some (fd, false) else none
  finite := ⟨3, fun fd above => if_neg (by unfold STDIN STDERR; omega)⟩

theorem wired_iff_withoutStdout :
    (run .quietChild { exe := "/bin/true" } (.start (.ofOuter withoutStdout) 0)).1 = .replaced ∧
    (Wired none (.ofOuter withoutStdout)
        (run .quietChild { exe := "/bin/true" } (.start (.ofOuter withoutStdout) 0)).2.fds ↔
      withoutStdout.get STDOUT ≠ none ∧ withoutStdout.get STDERR ≠ none ∧
        (Option.isSome (α := Bytes) none → withoutStdout.get STDIN ≠ none)) :=
  wired_iff .quietChild { exe := "/bin/true" } withoutStdout 0 Environment.quietChild_succeeds rfl
    rfl rfl

/-- The first pipe takes the free number 1, and the child closes it again. -/
theorem withoutStdout_not_wired : ¬ ∀ (env : Environment) (a : Args)
    (outer : DescriptorTable (ℕ × Bool)) (e₀ : Errno), env.Succeeds → env.pid = 0 →
    a.stdout = none → a.stderr = none →
    Wired a.stdin (.ofOuter outer) (run env a (.start (.ofOuter outer) e₀)).2.fds := by
  intro wired
  have ran := run_child Environment.quietChild_succeeds rfl (a := { exe := "/bin/true" }) rfl rfl
    (.ofOuter withoutStdout) 0
  have stdout := (wired .quietChild { exe := "/bin/true" } withoutStdout 0
    Environment.quietChild_succeeds rfl rfl rfl).2.1
  have free : (Table.ofOuter withoutStdout).get STDOUT = none := by decide
  rw [ran.2, Table.atExec_get_free _ (by decide) free] at stdout
  contradiction

end OmniaJit.Exec
