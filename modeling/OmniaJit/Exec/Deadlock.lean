import OmniaJit.Exec.PipeSystem

/-! # Which children deadlock with their parent

The parent writes all of stdin and waits for the child before it reads any output. A child whose
outputs fit into their pipes never has to wait for that, whatever the order of the steps; a child
that writes one byte more is stuck at it while its parent waits. Both directions are simulations
between the system and the program run on its own.
-/

namespace OmniaJit.Exec

open OmniaJit.Machine

/-- A program run on its own: its state, the stdin it has not read and what it has written. -/
structure Solo (σ : Type) where
  state : σ
  input : Bytes
  written : Stream → ℕ

section Programs

variable {σ : Type} (C : ℕ) (program : ChildProgram σ)

/-- A step of a program on its own. A read takes any amount of the input that a pipe of capacity
`C` can offer it, and writing never blocks. -/
inductive SoloStep : Solo σ → Solo σ → Prop
  | read {x : Solo σ} {limit : ℕ} {next : Bytes → σ} {taken rest : Bytes}
      (action : program.action x.state = .read limit next) (input : x.input = taken ++ rest)
      (some : taken ≠ []) (short : taken.length ≤ limit + 1) (held : taken.length ≤ C) :
      SoloStep x { x with state := next taken, input := rest }
  | readEnd {x : Solo σ} {limit : ℕ} {next : Bytes → σ}
      (action : program.action x.state = .read limit next) (input : x.input = []) :
      SoloStep x { x with state := next [] }
  | write {x : Solo σ} {stream : Stream} {byte : Byte} {next : σ}
      (action : program.action x.state = .write stream byte next) :
      SoloStep x { x with state := next,
                          written := Function.update x.written stream (x.written stream + 1) }
  | work {x : Solo σ} {next : ℕ → σ} (action : program.action x.state = .work next)
      (choice : ℕ) : SoloStep x { x with state := next choice }

def Solo.initial (s : Bytes) : Solo σ where
  state := program.start
  input := s
  written _ := 0

/-- What has been written would fit into the two pipes. -/
def Solo.Within (x : Solo σ) : Prop := ∀ stream, x.written stream ≤ C

/-- With the stdin string `s`, the program never writes more than `C` bytes to either output. -/
def Fits (s : Bytes) : Prop :=
  ∀ x, Reachable (SoloStep C program) (.initial program s) x → x.Within C

/-- A system whose child has got as far as the program on its own. -/
structure Follows (q : System σ) (x : Solo σ) : Prop where
  child : q.child = .running x.state ∨ (q.child = .starting ∧ x.state = program.start)
  input : q.stdin ++ q.unsent = x.input
  bounded : q.stdin.length ≤ C
  closed : q.phase ≠ .writing → q.unsent = []
  early : ∀ stream, q.phase ≠ .draining stream
  written : ∀ stream, (q.output stream).length = x.written stream

end Programs

section Safety

variable {σ : Type} {C : ℕ} {program : ChildProgram σ} {q q' : System σ} {x : Solo σ} {s : Bytes}

theorem Follows.alive (follows : Follows C program q x) : q.child.alive := by
  rcases follows.child with running | ⟨starting, -⟩
  · rw [running]; rfl
  · rw [starting]; rfl

theorem Follows.initial : Follows C program (.initial s) (.initial program s) where
  child := .inr ⟨rfl, rfl⟩
  input := rfl
  bounded := Nat.zero_le C
  closed other := absurd rfl other
  early _ := nofun
  written _ := rfl

theorem Follows.state_eq (follows : Follows C program q x) {state : σ}
    (running : q.child = .running state) : state = x.state := by
  rcases follows.child with same | ⟨starting, -⟩
  · rw [running] at same
    exact ChildState.running.inj same
  · rw [running] at starting
    contradiction

/-- As long as the child lives, the parent only moves stdin along. -/
theorem Follows.parent (follows : Follows C program q x) (step : ParentStep C q q') :
    Follows C program q' x := by
  have alive := follows.alive
  cases step with
  | @push byte rest phase unsent space _ =>
    refine { follows with input := ?_, bounded := ?_, closed := fun other => absurd phase other }
    · rw [← follows.input, unsent, List.append_assoc, List.singleton_append]
    · rw [List.length_append, List.length_singleton]
      exact space
  | closeStdin phase unsent =>
    exact { follows with closed := fun _ => unsent, early := fun _ => nofun }
  | brokenPipe _ _ gone => simp [alive] at gone
  | shortWrite _ _ gone => simp [alive] at gone
  | errnoClosed phase _ _ =>
    exact { follows with
      closed := fun _ => follows.closed (by simp [phase]), early := fun _ => nofun }
  | errnoRead _ sent => simp [sent, ChildState.alive] at alive
  | reap _ gone => simp [alive] at gone
  | killed _ gone => simp [alive] at gone
  | collect phase _ => exact absurd phase (follows.early _)
  | drained phase _ => exact absurd phase (follows.early _)
  | finish phase _ => exact absurd phase (follows.early _)

/-- Every step of the child is one the program can make on its own. -/
theorem Follows.childStep (follows : Follows C program q x) (step : ChildStep C program q q')
    (alive : q'.child.alive) :
    ∃ y, Reachable (SoloStep C program) x y ∧ Follows C program q' y := by
  cases step with
  | execv starting =>
    rcases follows.child with running | ⟨-, start⟩
    · rw [starting] at running
      contradiction
    · exact ⟨x, .refl, { follows with child := .inl (by rw [start]) }⟩
  | failed _ => simp [ChildState.alive] at alive
  | @read state limit next running action available =>
    obtain rfl := follows.state_eq running
    have input : x.input = q.stdin.take (limit + 1) ++ (q.stdin.drop (limit + 1) ++ q.unsent) := by
      rw [← List.append_assoc, List.take_append_drop, follows.input]
    refine ⟨_, .single (.read action input ?_ ?_ ?_),
      { follows with child := .inl rfl, input := rfl, bounded := ?_ }⟩
    · simpa using available
    · exact List.length_take_le _ _
    · exact (List.length_take_le' _ _).trans follows.bounded
    · rw [List.length_drop]
      exact (Nat.sub_le _ _).trans follows.bounded
  | @readEnd state limit next running action empty closed =>
    obtain rfl := follows.state_eq running
    have input : x.input = [] := by rw [← follows.input, empty, follows.closed closed]; rfl
    exact ⟨_, .single (.readEnd action input), { follows with child := .inl rfl }⟩
  | @write state next stream byte running action space =>
    obtain rfl := follows.state_eq running
    refine ⟨_, .single (.write action), { follows with child := .inl rfl, written := fun other => ?_ }⟩
    by_cases same : other = stream
    · subst same
      simp [follows.written]
    · simp [same, follows.written]
  | @work state next running action choice =>
    obtain rfl := follows.state_eq running
    exact ⟨_, .single (.work action choice), { follows with child := .inl rfl }⟩
  | exit _ _ => simp [ChildState.alive] at alive

/-- The program on its own simulates the system for as long as the child lives. -/
theorem solo_simulates : Simulates (Step C program) (SoloStep C program)
    (fun q x => q.child.alive → Follows C program q x) := by
  intro q q' x follows step
  by_cases alive : q'.child.alive
  · rcases step with step | step
    · have before : q.child.alive := by rwa [← step.child_eq]
      exact ⟨x, .refl, fun _ => (follows before).parent step⟩
    · have before : q.child.alive := by
        cases step <;> simp_all [ChildState.alive]
      obtain ⟨y, path, follows⟩ := (follows before).childStep step alive
      exact ⟨y, path, fun _ => follows⟩
  · exact ⟨x, .refl, fun now => absurd now alive⟩

/-- A child whose outputs fit is never stuck in a write, and a blocked parent has left it
something to read. -/
theorem deadlockFree_of_fits (positive : 0 < C) (fits : Fits C program s) :
    DeadlockFree C program s := by
  rintro q reached ⟨⟨alive, waits⟩, blocked⟩
  obtain ⟨x, path, follows⟩ := solo_simulates.reachable reached (fun _ => Follows.initial)
  have follows := follows alive
  rcases blocked with ⟨running, action, empty, writer⟩ | ⟨running, action, full⟩
  · rcases waits with ⟨-, -, full⟩ | ⟨phase, -⟩ | phase
    · rw [empty, List.length_nil] at full
      omega
    · simp [writer] at phase
    · simp [writer] at phase
  · rename_i state next stream byte
    obtain rfl := follows.state_eq running
    have more : Function.update x.written stream (x.written stream + 1) stream ≤ C :=
      fits _ (path.tail (.write action)) stream
    rw [Function.update_self, ← follows.written] at more
    omega

end Safety

section Jam

variable {σ : Type} {C : ℕ} {program : ChildProgram σ} {q : System σ} {x : Solo σ} {s : Bytes}

/-- The parent can move stdin into the pipe while there is room. -/
theorem reachable_fill (phase : q.phase = .writing) (alive : q.child.alive) {taken rest : Bytes}
    (unsent : q.unsent = taken ++ rest) (space : q.stdin.length + taken.length ≤ C) :
    Reachable (Step C program) q { q with unsent := rest, stdin := q.stdin ++ taken } := by
  induction taken generalizing q with
  | nil =>
    have same : q = { q with unsent := rest, stdin := q.stdin ++ [] } := by
      rw [List.append_nil, ← (show q.unsent = rest from unsent)]
    rw [← same]
  | cons byte taken ih =>
    rw [List.length_cons] at space
    have first : Step C program q
        { q with unsent := taken ++ rest, stdin := q.stdin ++ [byte] } :=
      .inl (.push phase unsent (by omega) alive)
    have room : (q.stdin ++ [byte]).length + taken.length ≤ C := by
      rw [List.length_append, List.length_singleton]
      omega
    have more := ih (q := { q with unsent := taken ++ rest, stdin := q.stdin ++ [byte] }) phase alive
      rfl room
    simp only [List.append_assoc, List.singleton_append] at more
    exact .head first more

/-- A parent that has closed stdin goes on to wait for a running child. -/
theorem reachable_waiting {state : σ} (running : q.child = .running state)
    (phase : q.phase = .readingErrno) :
    Reachable (Step C program) q { q with phase := .waiting } :=
  .single (.inl (.errnoClosed phase (by rw [running]; nofun) (by rw [running]; nofun)))

/-- Left alone with a child that neither reads nor leaves, the parent ends up blocked. -/
theorem reachable_parentBlocked {state : σ} (running : q.child = .running state)
    (bounded : q.stdin.length ≤ C) (phase : q.phase = .writing ∨ q.phase = .readingErrno) :
    ∃ q', Reachable (Step C program) q q' ∧ ParentBlocked C q' ∧ q'.child = q.child ∧
      q'.output = q.output := by
  have alive : q.child.alive := by rw [running]; rfl
  rcases phase with phase | phase
  · by_cases room : q.stdin.length + q.unsent.length ≤ C
    · -- everything fits: the parent closes stdin and waits
      have fill : Reachable (Step C program) q _ :=
        reachable_fill phase alive (List.append_nil _).symm room
      have close : Reachable (Step C program) q _ := fill.tail (.inl (.closeStdin phase rfl))
      exact ⟨_, close.trans (reachable_waiting running rfl), ⟨alive, .inr (.inr rfl)⟩, rfl, rfl⟩
    · -- the pipe fills up first
      have unsent := (List.take_append_drop (C - q.stdin.length) q.unsent).symm
      have fill : Reachable (Step C program) q _ := reachable_fill phase alive unsent (by
        rw [List.length_take]; omega)
      refine ⟨_, fill, ⟨alive, .inl ⟨phase, ?_, ?_⟩⟩, rfl, rfl⟩
      · rw [ne_eq, List.drop_eq_nil_iff]
        omega
      · rw [List.length_append, List.length_take]
        omega
  · exact ⟨_, reachable_waiting running phase, ⟨alive, .inr (.inr rfl)⟩, rfl, rfl⟩

/-- A system that moves in step with the program on its own: stdin is handed over only as it is
read. -/
structure InStep (q : System σ) (x : Solo σ) : Prop where
  running : q.child = .running x.state
  empty : q.stdin = []
  unsent : q.unsent = x.input
  phase : q.phase = .writing ∨ (q.phase = .readingErrno ∧ x.input = [])
  written : ∀ stream, (q.output stream).length = x.written stream

theorem InStep.execv (program : ChildProgram σ) (s : Bytes) :
    InStep { System.initial (σ := σ) s with child := .running program.start }
      (.initial program s) where
  running := rfl
  empty := rfl
  unsent := rfl
  phase := .inl rfl
  written _ := rfl

/-- The system can copy every step of the program that keeps within the pipes. -/
theorem system_simulates : Simulates
    (fun x y => SoloStep C program x y ∧ y.Within C) (Step C program) (fun x q => InStep q x) := by
  rintro x y q inStep ⟨step, within⟩
  obtain ⟨running, empty, unsent, phase, written⟩ := inStep
  have alive : q.child.alive := by rw [running]; rfl
  cases step with
  | @read limit next taken rest action input some short held =>
    have writing : q.phase = .writing := by
      rcases phase with writing | ⟨-, ended⟩
      · exact writing
      · simp [ended, some] at input
    have fill : Reachable (Step C program) q { q with unsent := rest, stdin := taken } := by
      have moved : Reachable (Step C program) q _ := reachable_fill writing alive
        (unsent.trans input) (by rw [empty]; simpa using held)
      simpa only [empty, List.nil_append] using moved
    have whole : taken.take (limit + 1) = taken := List.take_of_length_le short
    refine ⟨_, fill.tail (.inr (.read running action some)), ?_⟩
    exact ⟨by rw [whole], List.drop_of_length_le short, rfl, .inl writing, written⟩
  | @readEnd limit next action input =>
    rcases phase with writing | ⟨closed, -⟩
    · have close : Step C program q { q with phase := .readingErrno } :=
        .inl (.closeStdin writing (unsent.trans input))
      exact ⟨_, .tail (.single close) (.inr (.readEnd running action empty nofun)),
        rfl, empty, unsent, .inr ⟨rfl, input⟩, written⟩
    · exact ⟨_, .single (.inr (.readEnd running action empty (by rw [closed]; nofun))),
        rfl, empty, unsent, .inr ⟨closed, input⟩, written⟩
  | @write stream byte next action =>
    have space : (q.output stream).length < C := by
      have after := within stream
      simp only [Function.update_self] at after
      rw [written]
      exact after
    refine ⟨_, .single (.inr (.write running action space)), rfl, empty, unsent, phase, fun other => ?_⟩
    by_cases same : other = stream
    · subst same
      simp [written]
    · simp [same, written]
  | @work next action choice =>
    exact ⟨_, .single (.inr (.work running action choice)), rfl, empty, unsent, phase, written⟩

/-- The first byte that does not fit is where the child gets stuck. -/
theorem fits_of_deadlockFree (free : DeadlockFree C program s) : Fits C program s := by
  intro y reached
  have empty : (Solo.initial program s).Within C := fun _ => Nat.zero_le C
  rcases reached.kept_or_lost empty with ⟨-, within⟩ | lost
  · exact within
  exfalso
  obtain ⟨x, y, path, within, step, beyond⟩ := lost
  obtain ⟨q, reached, inStep⟩ := system_simulates.reachable path (InStep.execv program s)
  have jammed : ∃ stream byte next, program.action x.state = .write stream byte next ∧
      C ≤ x.written stream := by
    cases step with
    | read _ _ _ _ _ => exact absurd within beyond
    | readEnd _ _ => exact absurd within beyond
    | work _ _ => exact absurd within beyond
    | @write stream byte next action =>
      refine ⟨stream, byte, next, action, ?_⟩
      by_contra room
      apply beyond
      intro other
      by_cases same : other = stream
      · subst same
        simp only [Function.update_self]
        omega
      · simpa [same] using within other
  obtain ⟨stream, byte, next, action, full⟩ := jammed
  have bounded : q.stdin.length ≤ C := by rw [inStep.empty]; exact Nat.zero_le C
  obtain ⟨q', path', blocked, sameChild, sameOutput⟩ :=
    reachable_parentBlocked inStep.running bounded (inStep.phase.imp_right And.left)
  have start : Step C program (.initial s) _ := .inr (.execv rfl)
  refine free q' (.head start (reached.trans path')) ⟨blocked, ?_⟩
  exact .write (sameChild.trans inStep.running) action
    (by rw [sameOutput, inStep.written]; exact full)

end Jam

/-- The parent and its child never deadlock, over any interleaving of their steps, exactly when the
program fits its outputs into the pipes. -/
theorem deadlockFree_iff {σ : Type} (program : ChildProgram σ) (s : Bytes) {C : ℕ}
    (positive : 0 < C) : DeadlockFree C program s ↔ Fits C program s :=
  ⟨fits_of_deadlockFree, deadlockFree_of_fits positive⟩

/-- A program that writes `count` bytes to its stdout and exits. -/
def chatter (count : ℕ) : ChildProgram ℕ where
  start := 0
  action written := if written < count then .write .stdout 121 (written + 1) else .exit

theorem deadlockFree_iff_chatter :
    DeadlockFree 65536 (chatter 3) [] ↔ Fits 65536 (chatter 3) [] :=
  deadlockFree_iff (chatter 3) [] (by decide)

/-- One byte more than a pipe of the default size takes. -/
theorem chatter_deadlocks : ¬ ∀ (σ : Type) (program : ChildProgram σ) (s : Bytes) (C : ℕ), 0 < C →
    DeadlockFree C program s := by
  intro free
  have fits := fits_of_deadlockFree (free ℕ (chatter 65537) [] 65536 (by decide))
  have speaks : ∀ n ≤ 65537, ∃ x, Reachable (SoloStep 65536 (chatter 65537))
      (.initial (chatter 65537) []) x ∧ x.state = n ∧ x.written .stdout = n := by
    intro n
    induction n with
    | zero => exact fun _ => ⟨_, .refl, rfl, rfl⟩
    | succ n ih =>
      intro bound
      obtain ⟨x, path, state, written⟩ := ih (by omega)
      have action : (chatter 65537).action x.state = .write .stdout 121 (n + 1) := by
        rw [state]
        exact if_pos (by omega)
      exact ⟨_, path.tail (.write action), rfl, by simp [written]⟩
  obtain ⟨x, path, -, written⟩ := speaks 65537 le_rfl
  have within := fits x path .stdout
  omega

end OmniaJit.Exec
