import OmniaJit.Exec.Setup

/-! # Invariants of the parent's branch

Most calls of the parent neither open nor close anything, and the descriptors it closes are known
by name. An invariant that the first kind of call keeps, and that survives those closes, is
therefore kept by every function of the branch; how the call got there is a rule of its own.
-/

namespace OmniaJit.Exec

open OmniaJit.Machine OmniaJit.Posix OmniaJit.FfiExt

/-- A call that opens and closes nothing. -/
def Event.passive : Event → Bool
  | .pipe _ _ | .open _ _ | .close _ _ => false
  | _ => true

def KeepsPassive (invariant : Proc → Prop) : Prop :=
  ∀ q event, event.passive → invariant q → invariant (q.record event)

/-- A call on an open descriptor that leaves it as it is. -/
def Event.on (fd : Fd) : Event → Prop
  | .write target _ _ | .read target _ | .getfl target _ | .setfl target _ => target = fd
  | _ => False

/-- The invariant survives the calls on one descriptor. -/
def KeepsCalls (invariant : Proc → Prop) (fd : Fd) : Prop :=
  ∀ q event, event.on fd → invariant q → invariant (q.record event)

theorem KeepsPassive.on {invariant : Proc → Prop} (keeps : KeepsPassive invariant) (fd : Fd) :
    KeepsCalls invariant fd := by
  intro q event call held
  apply keeps q event _ held
  cases event <;> first | rfl | contradiction

def KeepsClose (invariant : Proc → Prop) (fd : Fd) : Prop := ∀ q, invariant q → invariant (q.close fd)

section Parent

variable {invariant : Proc → Prop}

/-- A retried call that leaves the table alone. -/
theorem retry_keeps {α : Type} {event : Except Errno α → Event} {effect : Table → α × Table}
    (keeps : ∀ q result, invariant q → invariant (q.record (event result)))
    (same : ∀ fds, (effect fds).2 = fds) (attempts : List (Option Errno)) :
    (retry (syscall event effect) attempts).Preserves invariant := by
  intro p holds
  apply ensures_retry invariant attempts holds
  · exact fun q e _ _ held => keeps q _ held
  · intro q _ held
    rw [same]
    exact keeps q _ held
  · exact fun q e _ held => keeps q _ held
  · exact fun q _ held => held

theorem close_keeps {other : Fd} (keeps : KeepsClose invariant other) :
    (C.close other).Preserves invariant := fun q held => keeps q held

variable (env : Environment)

theorem fail_keeps {α : Type} (s : String) (R : Result) :
    (fail env s R : M α).Preserves invariant := fun _ held => held

theorem sendStdin_keeps (p : Pipes) (stdin : Option Bytes) (calls : KeepsCalls invariant p.stdin.2)
    (close : KeepsClose invariant p.stdin.2) : (sendStdin env p stdin).Preserves invariant := by
  cases stdin with
  | none => exact close_keeps close
  | some s =>
    apply Program.Preserves.bind
    · exact retry_keeps (fun q result => calls q (.write _ s result) rfl) (fun _ => rfl) _
    · rintro (e | n)
      · exact .throw _
      · exact close_keeps close

theorem readErrno_keeps (p : Pipes) (calls : KeepsCalls invariant p.errno.1)
    (writer : KeepsClose invariant p.errno.2) (reader : KeepsClose invariant p.errno.1) :
    (readErrno env p).Preserves invariant := by
  apply Program.Preserves.bind (close_keeps writer)
  intro
  apply Program.Preserves.bind
    (retry_keeps (fun q result => calls q (.read _ result) rfl) (fun _ => rfl) _)
  intro n
  apply Program.Preserves.bind (close_keeps reader)
  intro
  cases n with
  | error e => exact .pure _
  | ok n =>
    dsimp only
    split
    · exact fail_keeps env _ _
    · exact .pure _

theorem reap_keeps (pid : ℕ)
    (waits : ∀ q result, invariant q → invariant (q.record (.waitpid pid result))) :
    (reap env pid).Preserves invariant := by
  apply Program.Preserves.bind (retry_keeps waits (fun _ => rfl) _)
  rintro (e | status)
  · exact .throw _
  · dsimp only
    split
    · exact .pure _
    · exact .throw _

theorem finish_keeps (a : Args) (pid ret : ℕ) (R : Result) :
    (finish a pid ret R).Preserves invariant := by
  simp only [finish]
  split
  · exact .pure _
  · split
    · exact .throw _
    · exact .pure _

/-- The read loop only logs its reads, until its last step closes the descriptor. -/
theorem readLines_ends (i : Fd) (calls : KeepsCalls invariant i)
    (replies : List (Except Errno (Option Byte))) (o : List Bytes) (s : Bytes) {p : Proc}
    (holds : invariant p) :
    Program.Ensures (readLines i replies o s) p
      (fun _ after => ∃ q, invariant q ∧ after = q.close i) (fun _ after => invariant after) := by
  induction replies generalizing o s p with
  | nil => exact holds
  | cons on rest ih =>
    have logged := calls p (.read i (on.map fun byte => byte.elim 0 fun _ => 1)) rfl holds
    match on with
    | .error e =>
      by_cases soft : Transient e
      · simpa [readLines, Program.ensures_modify, soft] using ih o s logged
      · simpa [readLines, Program.ensures_modify, soft] using ⟨_, logged, rfl⟩
    | .ok none => simpa [readLines, Program.ensures_modify] using ⟨_, logged, rfl⟩
    | .ok (some c) =>
      by_cases ends : c = Lua.newline
      · simpa [readLines, Program.ensures_modify, ends] using ih (o ++ [s]) [] logged
      · simpa [readLines, Program.ensures_modify, ends] using ih o (s ++ [c]) logged

/-- `output` either fails with its descriptor still open, or closes it last. -/
theorem output_ends (i : Fd) (stream : Stream) (calls : KeepsCalls invariant i) {p : Proc}
    (holds : invariant p) :
    Program.Ensures (output env i stream) p
      (fun result after => match result with
        | .error _ => invariant after
        | .ok _ => ∃ q, invariant q ∧ after = q.close i)
      (fun _ after => invariant after) := by
  simp only [output, Program.ensures_bind]
  have kept : Program.Ensures (once (C.getfl i) (env.attempts (.getfl stream))) p
      (fun _ after => invariant after) (fun _ after => invariant after) := by
    apply ensures_once
    · exact fun _ => calls p _ rfl holds
    · exact fun e _ => calls p _ rfl holds
    · exact fun _ => holds
  refine kept.mono (fun _ q held => ?_) (fun _ _ held => held)
  refine (retry_keeps (fun q result => calls q (.setfl i result) rfl) (fun _ => rfl) _ q held).mono
    (fun result r held => ?_) (fun _ _ held => held)
  cases result with
  | error e => simpa [errno] using held
  | ok flags => simpa using readLines_ends i calls _ [] [] held

/-- The collector closes its descriptor, and its caller closes it again on both paths. -/
theorem collect_keeps (i : Fd) (stream : Stream) (R : Result) (calls : KeepsCalls invariant i)
    (close : KeepsClose invariant i) : (collect env i stream R).Preserves invariant := by
  intro p holds
  simp only [collect, Program.ensures_bind]
  refine (output_ends env i stream calls holds).mono (fun result q held => ?_)
    (fun _ _ held => held)
  rw [ensures_close]
  cases result with
  | error e => exact close q held
  | ok o =>
    obtain ⟨r, held, rfl⟩ := held
    exact close _ (close r held)

end Parent

section Entry

/-- The calls made before `fork` has returned. -/
def Event.setup : Event → Bool
  | .pipe _ _ | .getfd _ _ | .setfd _ _ | .fork _ => true
  | _ => false

/-- The environment lets both processes get past `fork`. -/
structure Environment.Forks (env : Environment) : Prop where
  pipes : ∀ name, (env.attempts (.pipe name)).head? = some none
  getfd : settle (env.attempts .getfd) ≠ none
  setfd : settle (env.attempts .setfd) = some none
  fork : settle (env.attempts .fork) = some none

/-- An invariant that the calls before `fork` keep, whatever they do to the table. -/
def KeepsSetup (invariant : Proc → Prop) : Prop :=
  ∀ q fds event, event.setup → invariant q → invariant ({ q with fds := fds }.record event)

variable {invariant : Proc → Prop} (env : Environment)

private theorem openPipes_keeps (setup : KeepsSetup invariant) {p : Proc} (holds : invariant p) :
    Program.Ensures (openPipes env) p
      (fun pipes after => pipes = p.fds.pipes.1 ∧ invariant after ∧
        ∀ name, (env.attempts (.pipe name)).head? = some none)
      (fun _ after => invariant after ∧ ∃ name, (env.attempts (.pipe name)).head? ≠ some none) := by
  have failed (name : PipeName) {q : Proc} (held : invariant q) (e : Errno)
      (first : (env.attempts (.pipe name)).head? = some (some e)) :
      invariant (q.record (.pipe name (.error e))) ∧
        ∃ name, (env.attempts (.pipe name)).head? ≠ some none :=
    ⟨setup q q.fds _ rfl held, name, by simp [first]⟩
  have blocked (name : PipeName) {q : Proc} (held : invariant q)
      (none : (env.attempts (.pipe name)).head? = none) :
      invariant q ∧ ∃ name, (env.attempts (.pipe name)).head? ≠ some Option.none :=
    ⟨held, name, by simp [none]⟩
  have created (name : PipeName) {q : Proc} (held : invariant q) :
      invariant ({ q with fds := (q.fds.pipe name).2 }.record (.pipe name (.ok (q.fds.pipe name).1))) :=
    setup q _ _ rfl held
  simp only [openPipes, Program.ensures_bind, Program.ensures_pure]
  refine ensures_openPipe env .stdin _ (fun stdin => ?_) (failed _ holds) (blocked _ holds)
  have holds := created .stdin holds
  refine ensures_openPipe env .stdout _ (fun stdout => ?_) (failed _ holds) (blocked _ holds)
  have holds := created .stdout holds
  refine ensures_openPipe env .stderr _ (fun stderr => ?_) (failed _ holds) (blocked _ holds)
  have holds := created .stderr holds
  refine ensures_openPipe env .errno _ (fun errno => ?_) (failed _ holds) (blocked _ holds)
  refine ⟨rfl, created .errno holds, ?_⟩
  rintro (_ | _ | _ | _)
  · exact stdin
  · exact stdout
  · exact stderr
  · exact errno

private theorem closeOnExec_keeps_setup (p : Pipes) (setup : KeepsSetup invariant) {q : Proc}
    (holds : invariant q) :
    Program.Ensures (closeOnExec env p) q
      (fun _ after => invariant after ∧ settle (env.attempts .getfd) ≠ none ∧
        settle (env.attempts .setfd) = some none)
      (fun _ after => invariant after ∧
        (settle (env.attempts .getfd) = none ∨ settle (env.attempts .setfd) ≠ some none)) := by
  have logged {q : Proc} (event : Event) (setting : event.setup) (held : invariant q) :
      invariant (q.record event) := setup q q.fds event setting held
  have setfd {q : Proc} {post : Except Errno Unit → Proc → Prop} (held : invariant q)
      (succeeded : ∀ after, invariant after → settle (env.attempts .setfd) = some none →
        post (.ok ()) after)
      (failed : ∀ e after, invariant after → settle (env.attempts .setfd) = some (some e) →
        post (.error e) after) :
      Program.Ensures (retry (C.setfd p.errno.2) (env.attempts .setfd)) q post
        (fun _ after => invariant after ∧
          (settle (env.attempts .getfd) = none ∨ settle (env.attempts .setfd) ≠ some none)) := by
    apply ensures_retry invariant _ held
    · exact fun q e _ _ held => logged _ rfl held
    · exact fun q settled held => succeeded _ (setup q _ _ rfl held) settled
    · exact fun q e settled held => failed e _ (logged _ rfl held) settled
    · exact fun q blocked held => ⟨held, .inr (by simp [blocked])⟩
  simp only [closeOnExec, Program.ensures_bind]
  apply ensures_retry invariant _ holds
  · intro q e _ _ held
    exact logged _ rfl held
  · intro q known held
    exact setfd (logged _ rfl held) (fun after held done => ⟨held, by simp [known], done⟩)
      (fun e after held failed => ⟨held, .inr (by simp [failed])⟩)
  · intro q e unknown held
    exact setfd (logged _ rfl held) (fun after held done => ⟨held, by simp [unknown], done⟩)
      (fun e after held failed => ⟨held, .inr (by simp [failed])⟩)
  · exact fun q blocked held => ⟨held, .inl blocked⟩

/-- How the parent's branch is entered: with the pipes the table dictates, and only if the
environment allows the fork. -/
theorem ensures_spawn_parent (a : Args) {fds : Table} {e₀ : Errno} (parent : 0 < env.pid)
    (setup : KeepsSetup invariant) (start : invariant (.start fds e₀))
    {post : Option ℕ × Result → Proc → Prop} {exit : Exit → Proc → Prop}
    (stopped : ∀ x q, ¬ env.Forks → invariant q → exit x q)
    (reached : ∀ q, env.Forks → invariant q →
      Program.Ensures (Exec.parent env a fds.pipes.1 env.pid) q post exit) :
    Program.Ensures (spawn env a) (.start fds e₀) post exit := by
  simp only [spawn, Program.ensures_bind]
  refine (openPipes_keeps env setup start).mono ?_ ?_
  swap
  · rintro x q ⟨held, name, missing⟩
    exact stopped x q (fun forks => missing (forks.pipes name)) held
  rintro p q ⟨rfl, held, pipes⟩
  refine (closeOnExec_keeps_setup env _ setup held).mono ?_ ?_
  swap
  · rintro x q ⟨held, way⟩
    exact stopped x q (fun forks => way.elim forks.getfd (fun failed => failed forks.setfd)) held
  rintro _ q ⟨held, getfd, setfd⟩
  apply ensures_retry invariant _ held
  · exact fun q e _ _ held => setup q q.fds _ rfl held
  · intro q forked held
    dsimp only
    rw [if_neg (by omega)]
    exact reached _ ⟨pipes, getfd, setfd, forked⟩ (setup q q.fds _ rfl held)
  · intro q e failed held
    exact stopped _ _ (fun forks => by simp [forks.fork] at failed) (setup q q.fds _ rfl held)
  · intro q blocked held
    exact stopped _ _ (fun forks => by simp [forks.fork] at blocked) held

end Entry

end OmniaJit.Exec
