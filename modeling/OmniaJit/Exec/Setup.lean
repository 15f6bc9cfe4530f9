import Mathlib.Data.List.Nodup
import OmniaJit.Exec.Spawn

/-! # The descriptors of one call

The four pipes take eight numbers, each the lowest one free at the time. Their order, and the
fact that no free number below them is passed over, is all that later arguments need.
-/

namespace OmniaJit.Exec

open OmniaJit.Machine OmniaJit.Posix OmniaJit.FfiExt

def Pipes.get (p : Pipes) : PipeName → Fd × Fd
  | .stdin => p.stdin
  | .stdout => p.stdout
  | .stderr => p.stderr
  | .errno => p.errno

def Pipes.fd (p : Pipes) (name : PipeName) : Side → Fd
  | .read => (p.get name).1
  | .write => (p.get name).2

/-- The eight numbers in the order they are allocated. -/
def Pipes.all (p : Pipes) : List Fd :=
  [p.stdin.1, p.stdin.2, p.stdout.1, p.stdout.2, p.stderr.1, p.stderr.2, p.errno.1, p.errno.2]

theorem Pipes.fd_mem_all (p : Pipes) (name : PipeName) (side : Side) : p.fd name side ∈ p.all := by
  cases name <;> cases side <;> simp [Pipes.fd, Pipes.get, Pipes.all]

/-- The place of an end in `Pipes.all`. -/
private def position : PipeName → Side → Fin 8
  | .stdin, .read => 0
  | .stdin, .write => 1
  | .stdout, .read => 2
  | .stdout, .write => 3
  | .stderr, .read => 4
  | .stderr, .write => 5
  | .errno, .read => 6
  | .errno, .write => 7

private theorem position_injective {name name' : PipeName} {side side' : Side}
    (same : position name side = position name' side') : (name, side) = (name', side') := by
  revert same
  cases name <;> cases side <;> cases name' <;> cases side' <;> decide

private theorem all_position (p : Pipes) (name : PipeName) (side : Side) :
    p.all.get (position name side) = p.fd name side := by
  cases name <;> cases side <;> rfl

/-- Different ends have different numbers. -/
theorem Pipes.fd_ne {p : Pipes} (distinct : p.all.Nodup) (name : PipeName) (side : Side)
    (name' : PipeName) (side' : Side) (different : (name, side) ≠ (name', side')) :
    p.fd name side ≠ p.fd name' side' := by
  intro same
  rw [← all_position, ← all_position] at same
  exact different (position_injective (List.nodup_iff_injective_get.mp distinct same))

/-- The numbers and the table after four successful `pipe(2)` calls. -/
def Table.pipes (fds : Table) : Pipes × Table :=
  let stdin := fds.pipe .stdin
  let stdout := stdin.2.pipe .stdout
  let stderr := stdout.2.pipe .stderr
  let errno := stderr.2.pipe .errno
  ({ stdin := stdin.1, stdout := stdout.1, stderr := stderr.1, errno := errno.1 }, errno.2)

/-- What the four pipes leave: the numbers they took, and each end behind its own number. -/
structure Opened (before : Table) (p : Pipes) (after : Table) : Prop where
  taken : before.Taken p.all after
  ends : ∀ name side, after.get (p.fd name side) = some { file := .pipeEnd name side }

private theorem pipe_taken {before after : Table} {taken : List Fd} (name : PipeName)
    (valid : before.Taken taken after) :
    before.Taken (taken ++ [(after.pipe name).1.1, (after.pipe name).1.2]) (after.pipe name).2 := by
  have both := (valid.allocate { file := .pipeEnd name .read }).allocate { file := .pipeEnd name .write }
  rw [List.append_assoc] at both
  exact both

theorem Table.pipe_read (fds : Table) (name : PipeName) :
    (fds.pipe name).2.get (fds.pipe name).1.1 = some { file := .pipeEnd name .read } := by
  have below := fds.lowestFree_lt_lowestFree_set { file := .pipeEnd name .read }
  simp only [Table.pipe]
  rw [DescriptorTable.get_set_of_ne _ (by omega), DescriptorTable.get_set_self]

theorem Table.pipe_write (fds : Table) (name : PipeName) :
    (fds.pipe name).2.get (fds.pipe name).1.2 = some { file := .pipeEnd name .write } := by
  simp only [Table.pipe, DescriptorTable.get_set_self]

/-- A descriptor that is open keeps its entry when a pipe is created. -/
theorem Table.pipe_frame {fds : Table} {fd : Fd} (name : PipeName) {entry : Descriptor}
    (occupied : fds.get fd = some entry) : (fds.pipe name).2.get fd = some entry := by
  have first := fds.get_set_lowestFree_of_ne_none { file := .pipeEnd name .read }
    (by rw [occupied]; exact Option.some_ne_none _)
  simp only [Table.pipe]
  rw [DescriptorTable.get_set_lowestFree_of_ne_none _ _ (by
    rw [first, occupied]; exact Option.some_ne_none _), first, occupied]

theorem Table.setCloexec_of_ne {fds : Table} {fd query : Fd} (other : query ≠ fd) :
    (fds.setCloexec fd).get query = fds.get query := by
  simp only [Table.setCloexec]
  cases fds.get fd with
  | none => rfl
  | some entry => exact DescriptorTable.get_set_of_ne _ other _

theorem Table.setCloexec_self {fds : Table} {fd : Fd} {entry : Descriptor}
    (occupied : fds.get fd = some entry) :
    (fds.setCloexec fd).get fd = some { entry with cloexec := true } := by
  simp only [Table.setCloexec, occupied, DescriptorTable.get_set_self]

theorem Table.setCloexec_occupied {fds : Table} {fd query : Fd} (occupied : fds.get query ≠ none) :
    (fds.setCloexec fd).get query ≠ none := by
  by_cases same : query = fd
  · subst same
    obtain ⟨entry, found⟩ := Option.ne_none_iff_exists'.mp occupied
    rw [Table.setCloexec_self found]
    exact Option.some_ne_none _
  · rwa [Table.setCloexec_of_ne same]

/-- The specification of the four allocations. -/
theorem Table.pipes_opened (fds : Table) : Opened fds fds.pipes.1 fds.pipes.2 where
  taken := by
    have stdin := pipe_taken .stdin (DescriptorTable.Taken.nil fds)
    have stdout := pipe_taken .stdout stdin
    have stderr := pipe_taken .stderr stdout
    exact pipe_taken .errno stderr
  ends name side := by
    cases name <;> cases side
    · exact pipe_frame _ (pipe_frame _ (pipe_frame _ (pipe_read _ _)))
    · exact pipe_frame _ (pipe_frame _ (pipe_frame _ (pipe_write _ _)))
    · exact pipe_frame _ (pipe_frame _ (pipe_read _ _))
    · exact pipe_frame _ (pipe_frame _ (pipe_write _ _))
    · exact pipe_frame _ (pipe_read _ _)
    · exact pipe_frame _ (pipe_write _ _)
    · exact pipe_read _ _
    · exact pipe_write _ _

theorem Opened.nodup {before after : Table} {p : Pipes} (opened : Opened before p after) :
    p.all.Nodup :=
  opened.taken.increasing.imp (fun below => Nat.ne_of_lt below)

/-- Eight increasing numbers leave room below each of them. -/
theorem Opened.above {before after : Table} {p : Pipes} (opened : Opened before p after) :
    STDIN < p.stdin.2 ∧ STDERR < p.stdout.2 ∧ STDERR < p.stderr.1 ∧ STDERR < p.stderr.2 ∧
      STDERR < p.errno.2 := by
  have increasing := opened.taken.increasing
  simp only [Pipes.all, List.pairwise_cons, List.mem_cons, List.not_mem_nil, or_false,
    forall_eq_or_imp, forall_eq] at increasing
  unfold STDIN STDERR
  unfold Fd at *
  omega

/-- A process about to call `exec.spawn`. -/
def Proc.start (fds : Table) (errno : Errno) : Proc := { fds := fds, errno := errno, events := [] }

/-- The usual table, with nothing but the three standard descriptors. -/
def Table.standard : Table where
  get fd := if fd < 3 then some { file := .outer fd } else none
  finite := ⟨3, fun _ above => if_neg (not_lt.mpr above)⟩

/-- Every call succeeds, and the child exits at once with status 0 and no output. -/
def Environment.quiet : Environment where
  attempts _ := [none]
  pid := 7
  stdinCount := 0
  errnoCount := 0
  status := 0
  output _ := [.ok none]
  strerror _ := "error"

/-- Every call fails with `EMFILE`. -/
def Environment.exhausted : Environment := { Environment.quiet with attempts := fun _ => [some 24] }

/-- What is true at every way out of `spawn` is true of its run. -/
theorem run_of_ensures {env : Environment} (a : Args) {before : Proc} (property : Exit → Proc → Prop)
    (ensures : Program.Ensures (spawn env a) before
      (fun value after => property (.returned value.1 value.2) after) property) :
    property (run env a before).1 (run env a before).2 := by
  simp only [Program.Ensures] at ensures
  simp only [run]
  cases ran : spawn env a before with
  | ok value after => simpa only [ran] using ensures
  | error exit after => simpa only [ran] using ensures

/-- The specification of one early-returning `pipe(2)`. -/
theorem ensures_openPipe (env : Environment) (name : PipeName) (s : String) {p : Proc}
    {post : Fd × Fd → Proc → Prop} {exit : Exit → Proc → Prop}
    (succeeded : (env.attempts (.pipe name)).head? = some none → post (p.fds.pipe name).1
      ({ p with fds := (p.fds.pipe name).2 }.record (.pipe name (.ok (p.fds.pipe name).1))))
    (failed : ∀ e, (env.attempts (.pipe name)).head? = some (some e) →
      exit (.returned none { error := some (strerror env e s) }) (p.record (.pipe name (.error e))))
    (blocked : (env.attempts (.pipe name)).head? = none → exit .blocked p) :
    Program.Ensures (openPipe env name s) p post exit := by
  simp only [openPipe, Program.ensures_bind, C.pipe]
  apply ensures_once
  · exact fun first => succeeded (by simpa using first)
  · intro e first
    simpa [fail, errno, Event.error?, errorOf] using failed e (by simpa using first)
  · exact blocked

end OmniaJit.Exec
