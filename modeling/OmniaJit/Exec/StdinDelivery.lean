import OmniaJit.Exec.Frames

/-! # The bytes that reach the child's stdin

The stdin string is handed to one `write(2)`. A call that is interrupted before it writes anything
is repeated, but one that takes only part of the string counts as done: its write end is closed
and the remainder is never sent. What reaches the pipe is therefore the prefix the first lasting
answer accepts.
-/

namespace OmniaJit.Exec

open OmniaJit.Machine OmniaJit.Posix OmniaJit.FfiExt

/-- The bytes successful writes put into `fd` before it is closed. -/
def placed (fd : Fd) : List Event → Bytes
  | [] => []
  | .write target bytes (.ok n) :: rest =>
      if target = fd then bytes.take n ++ placed fd rest else placed fd rest
  | .close target _ :: rest => if target = fd then [] else placed fd rest
  | _ :: rest => placed fd rest

def Closed (fd : Fd) (events : List Event) : Prop := ∃ result, .close fd result ∈ events

/-- If the parent has gone on to close its write end, the pipe has received exactly `s`. -/
def Delivers (writer : Fd) (s : Bytes) (after : Proc) : Prop :=
  Closed writer after.events → placed writer after.events = s

theorem placed_append_of_not_closed {fd : Fd} {events : List Event} (isOpen : ¬ Closed fd events)
    (later : List Event) : placed fd (events ++ later) = placed fd events ++ placed fd later := by
  induction events with
  | nil => rfl
  | cons event rest ih =>
    have restOpen : ¬ Closed fd rest := fun ⟨result, member⟩ =>
      isOpen ⟨result, List.mem_cons_of_mem _ member⟩
    have step := ih restOpen
    rw [List.cons_append]
    cases event with
    | close target result =>
      have other : target ≠ fd := fun same => isOpen ⟨result, same ▸ List.mem_cons_self ..⟩
      simpa [placed, other] using step
    | write target bytes result =>
      cases result with
      | error e => simpa [placed] using step
      | ok n => by_cases same : target = fd <;> simp [placed, same, step]
    | _ => simpa [placed] using step

/-- What happens after the close no longer counts. -/
theorem placed_append_of_closed {fd : Fd} {events : List Event} (closed : Closed fd events)
    (later : List Event) : placed fd (events ++ later) = placed fd events := by
  obtain ⟨result, member⟩ := closed
  induction events with
  | nil => simp at member
  | cons event rest ih =>
    rw [List.cons_append]
    rcases List.mem_cons.mp member with rfl | member
    · simp [placed]
    · have step := ih member
      cases event with
      | close target result => by_cases same : target = fd <;> simp [placed, same, step]
      | write target bytes result =>
        cases result with
        | error e => simpa [placed] using step
        | ok n => by_cases same : target = fd <;> simp [placed, same, step]
      | _ => simpa [placed] using step

/-- Nothing has been written to `fd` yet, and it has not been closed. -/
def Silent (fd : Fd) (p : Proc) : Prop := ¬ Closed fd p.events ∧ placed fd p.events = []

/-- `fd` received exactly `bytes` and has been closed. -/
def Sent (fd : Fd) (bytes : Bytes) (p : Proc) : Prop :=
  Closed fd p.events ∧ placed fd p.events = bytes

section Invariants

variable {fd : Fd} {bytes : Bytes}

theorem Sent.record {p : Proc} (sent : Sent fd bytes p) (event : Event) :
    Sent fd bytes (p.record event) := by
  obtain ⟨⟨result, member⟩, same⟩ := sent
  refine ⟨⟨result, List.mem_append_left _ member⟩, ?_⟩
  rw [Proc.record_events, placed_append_of_closed ⟨result, member⟩, same]

theorem Sent.keepsPassive : KeepsPassive (Sent fd bytes) := fun _ event _ sent => sent.record event

theorem Sent.keepsClose (other : Fd) : KeepsClose (Sent fd bytes) other := fun q sent =>
  Sent.record (p := { q with fds := q.fds.close other }) sent _

/-- Events that do not touch `fd` keep it silent. -/
theorem Silent.record {p : Proc} (silent : Silent fd p) {event : Event}
    (stays : ¬ Closed fd [event]) (leaves : placed fd [event] = []) : Silent fd (p.record event) := by
  refine ⟨?_, ?_⟩
  · rintro ⟨result, member⟩
    rcases List.mem_append.mp member with old | new
    · exact silent.1 ⟨result, old⟩
    · exact stays ⟨result, new⟩
  · rw [Proc.record_events, placed_append_of_not_closed silent.1, silent.2, leaves, List.nil_append]

theorem Silent.keepsSetup (fd : Fd) : KeepsSetup (Silent fd) := by
  intro q fds event setup silent
  apply Silent.record (p := { q with fds := fds }) silent
  · rintro ⟨result, member⟩
    obtain rfl := List.mem_singleton.mp member
    contradiction
  · cases event <;> first | rfl | contradiction

theorem Silent.keepsClose {other : Fd} (different : fd ≠ other) : KeepsClose (Silent fd) other := by
  intro q silent
  apply Silent.record (p := { q with fds := q.fds.close other }) silent
  · rintro ⟨result, member⟩
    simp [different] at member
  · simp [placed, different.symm]

end Invariants

variable (env : Environment)

/-- How far the stdin string got, at any way out of the parent's branch. -/
def Progress (writer : Fd) (s : Bytes) (after : Proc) : Prop :=
  (settle (env.attempts .stdinWrite) = some none ∧
    Sent writer (s.take (min env.stdinCount s.length)) after) ∨
  (settle (env.attempts .stdinWrite) ≠ some none ∧ Silent writer after)

/-- The one `write(2)` and the close after it. -/
theorem sendStdin_progress (p : Pipes) (s : Bytes) {q : Proc} (silent : Silent p.stdin.2 q) :
    Program.Ensures (sendStdin env p (some s)) q
      (fun _ after => settle (env.attempts .stdinWrite) = some none ∧
        Sent p.stdin.2 (s.take (min env.stdinCount s.length)) after)
      (fun _ after => settle (env.attempts .stdinWrite) ≠ some none ∧ Silent p.stdin.2 after) := by
  have failed (q : Proc) (e : Errno) (silent : Silent p.stdin.2 q) :
      Silent p.stdin.2 (q.record (.write p.stdin.2 s (.error e))) := by
    apply silent.record _ rfl
    rintro ⟨result, member⟩
    simp at member
  simp only [sendStdin, Program.ensures_bind]
  apply ensures_retry (Silent p.stdin.2) _ silent
  · exact fun q e _ _ silent => failed q e silent
  · intro q settled silent
    refine ⟨settled, ⟨_, List.mem_append_right _ (List.mem_singleton_self _)⟩, ?_⟩
    have logged : ¬ Closed p.stdin.2
        (q.events ++ [.write p.stdin.2 s (.ok (min env.stdinCount s.length))]) := by
      rintro ⟨result, member⟩
      rcases List.mem_append.mp member with old | new
      · exact silent.1 ⟨result, old⟩
      · simp at new
    rw [Proc.close_events]
    dsimp only [Proc.record]
    rw [placed_append_of_not_closed logged, placed_append_of_not_closed silent.1, silent.2]
    simp [placed]
  · exact fun q e settled silent => ⟨by simp [settled], failed q e silent⟩
  · exact fun q settled silent => ⟨by simp [settled], silent⟩

theorem parent_progress (a : Args) (p : Pipes) (pid : ℕ) (distinct : p.all.Nodup) {s : Bytes}
    (given : a.stdin = some s) {q : Proc} (silent : Silent p.stdin.2 q) :
    Program.Ensures (parent env a p pid) q (fun _ after => Progress env p.stdin.2 s after)
      (fun _ after => Progress env p.stdin.2 s after) := by
  have close (name : PipeName) (side : Side) (other : (PipeName.stdin, Side.write) ≠ (name, side)) :
      KeepsClose (Silent p.stdin.2) (p.fd name side) :=
    Silent.keepsClose (Pipes.fd_ne distinct _ _ _ _ other)
  have stdin : KeepsClose _ p.stdin.1 := close .stdin .read (by decide)
  have stdout : KeepsClose _ p.stdout.2 := close .stdout .write (by decide)
  have stderr : KeepsClose _ p.stderr.2 := close .stderr .write (by decide)
  have passive : KeepsPassive (Sent p.stdin.2 (s.take (min env.stdinCount s.length))) :=
    Sent.keepsPassive
  have closes (other : Fd) :
      KeepsClose (Sent p.stdin.2 (s.take (min env.stdinCount s.length))) other :=
    Sent.keepsClose other
  simp only [parent, Program.ensures_bind, ensures_close, given]
  refine (sendStdin_progress env p s (stderr _ (stdout _ (stdin q silent)))).mono ?_
    (fun _ _ unsent => .inr unsent)
  rintro _ r ⟨settled, sent⟩
  have done {after : Proc} (sent : Sent p.stdin.2 (s.take (min env.stdinCount s.length)) after) :
      Progress env p.stdin.2 s after := .inl ⟨settled, sent⟩
  refine (readErrno_keeps env p (passive.on _) (closes _) (closes _) r sent).mono (fun _ r sent => ?_)
    (fun _ _ => done)
  refine (reap_keeps env pid (fun q _ => passive q _ rfl) r sent).mono (fun ret r sent => ?_) (fun _ _ => done)
  refine (collect_keeps env _ .stdout _ (passive.on _) (closes _) r sent).mono (fun out r sent => ?_)
    (fun _ _ => done)
  refine (collect_keeps env _ .stderr _ (passive.on _) (closes _) r sent).mono (fun err r sent => ?_)
    (fun _ _ => done)
  exact (finish_keeps a pid ret _ r sent).mono (fun _ _ => done) (fun _ _ => done)

/-- Over a whole run the parent sends a prefix of the string, or nothing and keeps the end open. -/
theorem run_progress (a : Args) (fds : Table) (e₀ : Errno) (parent : 0 < env.pid) {s : Bytes}
    (given : a.stdin = some s) :
    (env.Forks ∧ Progress env fds.pipes.1.stdin.2 s (run env a (.start fds e₀)).2) ∨
      (¬ env.Forks ∧ Silent fds.pipes.1.stdin.2 (run env a (.start fds e₀)).2) := by
  apply run_of_ensures a (fun _ after => (env.Forks ∧ Progress env fds.pipes.1.stdin.2 s after) ∨
    (¬ env.Forks ∧ Silent fds.pipes.1.stdin.2 after))
  apply ensures_spawn_parent env a parent (Silent.keepsSetup fds.pipes.1.stdin.2)
  · exact ⟨by rintro ⟨result, member⟩; simp [Proc.start] at member, rfl⟩
  · exact fun x q stopped silent => .inr ⟨stopped, silent⟩
  · intro q forks silent
    exact (parent_progress env a _ _ fds.pipes_opened.nodup given silent).mono
      (fun _ _ progress => .inl ⟨forks, progress⟩) (fun _ _ progress => .inl ⟨forks, progress⟩)

/-- The child gets the whole string exactly when the first answer of `write(2)` other than an
interruption is a failure or the full length. -/
theorem delivers_iff (a : Args) (fds : Table) (e₀ : Errno) (parent : 0 < env.pid) {s : Bytes}
    (given : a.stdin = some s) (bounded : env.stdinCount ≤ s.length) :
    Delivers fds.pipes.1.stdin.2 s (run env a (.start fds e₀)).2 ↔
      (env.Forks → settle (env.attempts .stdinWrite) = some none → env.stdinCount = s.length) := by
  have progress := run_progress env a fds e₀ parent given
  constructor
  · intro delivers forks settled
    obtain ⟨-, ⟨-, closed, sent⟩ | ⟨unsettled, -⟩⟩ | ⟨stopped, -⟩ := progress
    · have whole := congrArg List.length (sent.symm.trans (delivers closed))
      rw [List.length_take] at whole
      omega
    · exact absurd settled unsettled
    · exact absurd forks stopped
  · rintro complete closed
    obtain ⟨forks, ⟨settled, -, sent⟩ | ⟨-, isOpen, -⟩⟩ | ⟨-, isOpen, -⟩ := progress
    · rw [sent, complete forks settled, Nat.min_self, List.take_length]
    · exact absurd closed isOpen
    · exact absurd closed isOpen

/-- A `write(2)` that takes the two bytes it is given. -/
theorem delivers_iff_complete :
    Delivers (Table.pipes .standard).1.stdin.2 [104, 105]
      (run { Environment.quiet with stdinCount := 2 } { exe := "/bin/cat", stdin := some [104, 105] }
        (.start .standard 0)).2 ↔
    (Environment.Forks { Environment.quiet with stdinCount := 2 } →
      settle [none] = some none → 2 = [104, 105].length) :=
  delivers_iff { Environment.quiet with stdinCount := 2 }
    { exe := "/bin/cat", stdin := some [104, 105] } .standard 0 (by decide) rfl (by decide)

private theorem quiet_forks (count : ℕ) :
    Environment.Forks { Environment.quiet with stdinCount := count } where
  pipes _ := rfl
  getfd := nofun
  setfd := rfl
  fork := rfl

/-- A `write(2)` that takes one byte of two. -/
theorem short_write_loses_bytes : ¬ ∀ (env : Environment) (a : Args) (fds : Table) (e₀ : Errno)
    (s : Bytes), 0 < env.pid → a.stdin = some s → env.stdinCount ≤ s.length →
    Delivers fds.pipes.1.stdin.2 s (run env a (.start fds e₀)).2 := by
  intro delivers
  have whole := delivers { Environment.quiet with stdinCount := 1 }
    { exe := "/bin/cat", stdin := some [104, 105] } .standard 0 [104, 105] (by decide) rfl (by decide)
  obtain ⟨-, ⟨-, closed, sent⟩ | ⟨unsettled, -⟩⟩ | ⟨stopped, -⟩ :=
    run_progress { Environment.quiet with stdinCount := 1 }
      { exe := "/bin/cat", stdin := some [104, 105] } .standard 0 (by decide) rfl
  · exact absurd (sent.symm.trans (whole closed)) (by decide)
  · exact unsettled rfl
  · exact stopped (quiet_forks 1)

end OmniaJit.Exec
