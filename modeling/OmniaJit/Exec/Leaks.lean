import OmniaJit.Exec.Frames

/-! # What a call leaves behind in the parent

A ledger replays the calls a run has made and keeps the descriptors they opened and have not
closed. A call is clean when the table is back to what it was, every `close` named a descriptor
of the ledger, and a forked child has been waited for. Two facts decide the question: until the
collector of stderr runs, nothing closes the read end of that pipe, so every earlier return leaves
it open; and the collector closes its descriptor, which its caller then closes once more.
-/

namespace OmniaJit.Exec

open OmniaJit.Machine OmniaJit.Posix OmniaJit.FfiExt

/-- One call on the descriptors held; `none` is reached by closing a descriptor not held. -/
def ledgerStep (held : Option (List Fd)) : Event → Option (List Fd)
  | .pipe _ (.ok (reader, writer)) => held.map fun held => reader :: writer :: held
  | .open _ (.ok fd) => held.map fun held => fd :: held
  | .close fd _ => held.bind fun held => if fd ∈ held then some (held.erase fd) else none
  | _ => held

def ledger (events : List Event) : Option (List Fd) := events.foldl ledgerStep (some [])

theorem ledgerStep_passive {event : Event} (passive : event.passive) (held : Option (List Fd)) :
    ledgerStep held event = held := by
  cases event <;> first | rfl | contradiction

/-- The ledger after the four pipes, newest first. -/
def Pipes.held (p : Pipes) : List Fd :=
  [p.errno.1, p.errno.2, p.stderr.1, p.stderr.2, p.stdout.1, p.stdout.2, p.stdin.1, p.stdin.2]

theorem Pipes.held_nodup {p : Pipes} (distinct : p.all.Nodup) : p.held.Nodup := by
  simp only [Pipes.all, Pipes.held, List.nodup_cons, List.mem_cons, List.not_mem_nil, not_or,
    or_false] at distinct ⊢
  grind

def LeakFree (before after : Proc) : Prop :=
  after.fds = before.fds ∧ (ledger after.events).isSome ∧
    ∀ pid, .fork (.ok pid) ∈ after.events → ∃ status, .waitpid pid (.ok status) ∈ after.events

theorem ledger_append (events : List Event) (event : Event) :
    ledger (events ++ [event]) = ledgerStep (ledger events) event := by
  simp only [ledger, List.foldl_append, List.foldl_cons, List.foldl_nil]

theorem ledger_close (p : Proc) (fd : Fd) : ledger (p.close fd).events =
    (ledger p.events).bind fun held => if fd ∈ held then some (held.erase fd) else none := by
  rw [Proc.close_events, ledger_append, ledgerStep]

/-- `fd` is open, and the ledger, if it still stands, counts `once` at most one time. -/
def Leaking (fd once : Fd) (p : Proc) : Prop :=
  p.fds.get fd ≠ none ∧ ∀ held, ledger p.events = some held → held.count once ≤ 1

/-- Some descriptor that is not held has been closed. -/
def Overclosed (p : Proc) : Prop := ledger p.events = none

theorem Leaking.not_leakFree {before after : Proc} {fd once : Fd} (leaking : Leaking fd once after)
    (fresh : before.fds.get fd = none) : ¬ LeakFree before after := by
  rintro ⟨same, -⟩
  exact leaking.1 (same ▸ fresh)

theorem Overclosed.not_leakFree {before after : Proc} (overclosed : Overclosed after) :
    ¬ LeakFree before after := by
  rintro ⟨-, stands, -⟩
  rw [Overclosed] at overclosed
  simp [overclosed] at stands

section Frames

variable {fd once : Fd}

theorem Leaking.keepsPassive : KeepsPassive (Leaking fd once) := by
  rintro q event passive ⟨opened, bound⟩
  refine ⟨opened, fun held stands => bound held ?_⟩
  rwa [Proc.record_events, ledger_append, ledgerStep_passive passive] at stands

theorem Overclosed.keepsPassive : KeepsPassive Overclosed := by
  intro q event passive overclosed
  rw [Overclosed, Proc.record_events, ledger_append, ledgerStep_passive passive]
  exact overclosed

theorem Leaking.keepsClose {other : Fd} (different : fd ≠ other) :
    KeepsClose (Leaking fd once) other := by
  rintro q ⟨opened, bound⟩
  refine ⟨?_, ?_⟩
  · rwa [Proc.close_fds, DescriptorTable.get_close_of_ne _ different]
  · intro held stands
    rw [ledger_close, Option.bind_eq_some_iff] at stands
    obtain ⟨earlier, before, stands⟩ := stands
    split_ifs at stands with member
    obtain rfl := Option.some.inj stands
    exact le_trans (List.erase_sublist.count_le once) (bound earlier before)

theorem Overclosed.keepsClose (other : Fd) : KeepsClose Overclosed other := by
  intro q overclosed
  rw [Overclosed] at overclosed ⊢
  rw [ledger_close, overclosed, Option.bind_none]

/-- Closing twice what was counted at most once. -/
theorem Leaking.overclosed {p : Proc} (leaking : Leaking fd once p) :
    Overclosed ((p.close once).close once) := by
  rw [Overclosed, ledger_close, ledger_close]
  cases stands : ledger p.events with
  | none => rfl
  | some held =>
    rw [Option.bind_some]
    split_ifs with member
    · have gone : once ∉ held.erase once := by
        rw [← List.count_eq_zero, List.count_erase_self]
        have := leaking.2 held stands
        omega
      rw [Option.bind_some, if_neg gone]
    · rfl

end Frames

section Paths

variable (env : Environment)

/-- The collector of one stream: on its failure path nothing but its descriptor is closed, on its
success path that descriptor is closed twice. -/
theorem collect_overcloses {fd : Fd} (i : Fd) (stream : Stream) (R : Result) (different : fd ≠ i)
    {p : Proc} (leaking : Leaking fd i p) :
    Program.Ensures (collect env i stream R) p (fun _ after => Overclosed after)
      (fun _ after => Leaking fd i after) := by
  simp only [collect, Program.ensures_bind]
  refine (output_ends env i stream (Leaking.keepsPassive.on _) leaking).mono
    (fun result q held => ?_) (fun _ _ held => held)
  rw [ensures_close]
  cases result with
  | error e => exact Leaking.keepsClose different q held
  | ok o =>
    obtain ⟨r, held, rfl⟩ := held
    exact held.overclosed

/-- Every way out of the parent's branch leaves the stderr pipe open or has closed a descriptor
twice. -/
theorem parent_dirty (a : Args) (p : Pipes) (pid : ℕ) (distinct : p.all.Nodup) {q : Proc}
    (leaking : Leaking p.stderr.1 p.stdout.1 q) :
    Program.Ensures (parent env a p pid) q (fun _ after => Overclosed after)
      (fun _ after => Leaking p.stderr.1 p.stdout.1 after ∨ Overclosed after) := by
  have passive : KeepsPassive (Leaking p.stderr.1 p.stdout.1) := Leaking.keepsPassive
  have close (name : PipeName) (side : Side) (other : (PipeName.stderr, Side.read) ≠ (name, side)) :
      KeepsClose (Leaking p.stderr.1 p.stdout.1) (p.fd name side) :=
    Leaking.keepsClose (Pipes.fd_ne distinct _ _ _ _ other)
  simp only [parent, Program.ensures_bind, ensures_close]
  have stdin : KeepsClose _ p.stdin.1 := close .stdin .read (by decide)
  have stdout : KeepsClose _ p.stdout.2 := close .stdout .write (by decide)
  have stderr : KeepsClose _ p.stderr.2 := close .stderr .write (by decide)
  refine (sendStdin_keeps env p a.stdin (passive.on _) (close .stdin .write (by decide)) _
    (stderr _ (stdout _ (stdin q leaking)))).mono (fun _ r held => ?_) (fun _ _ held => .inl held)
  refine (readErrno_keeps env p (passive.on _) (close .errno .write (by decide))
    (close .errno .read (by decide)) r held).mono
    (fun _ r held => ?_) (fun _ _ held => .inl held)
  refine (reap_keeps env pid (fun q _ => passive q _ rfl) r held).mono (fun ret r held => ?_)
    (fun _ _ held => .inl held)
  have different : p.stderr.1 ≠ p.stdout.1 :=
    Pipes.fd_ne distinct .stderr .read .stdout .read (by decide)
  refine (collect_overcloses env p.stdout.1 .stdout _ different held).mono (fun stdout r held => ?_)
    (fun _ _ held => .inl held)
  refine (collect_keeps env p.stderr.1 .stderr _ (Overclosed.keepsPassive.on _)
    (Overclosed.keepsClose _) r held).mono (fun stderr r held => ?_) (fun _ _ held => .inr held)
  exact (finish_keeps a pid ret _ r held).mono (fun _ _ held => held) (fun _ _ held => .inr held)

theorem closeOnExec_keeps {fd once : Fd} (p : Pipes) :
    (closeOnExec env p).Preserves (Leaking fd once) := by
  have passive : KeepsPassive (Leaking fd once) := Leaking.keepsPassive
  apply Program.Preserves.bind (retry_keeps (fun q _ => passive q _ rfl) (fun _ => rfl) _)
  intro
  apply Program.Preserves.bind
  · intro q leaking
    apply ensures_retry (Leaking fd once) _ leaking
    · exact fun q e _ _ held => passive q _ rfl held
    · intro q _ held
      refine passive _ _ rfl ⟨?_, held.2⟩
      exact Table.setCloexec_occupied held.1
    · exact fun q e _ held => passive q _ rfl held
    · exact fun q _ held => held
  · rintro (e | flags)
    · exact fail_keeps env _ _
    · exact .pure _

/-- After the first pipe every way out of the other three finds that pipe open; past all four the
ledger holds eight different descriptors. -/
theorem openPipes_dirty {fds : Table} {e₀ : Errno}
    (first : ∀ e, (env.attempts (.pipe .stdin)).head? ≠ some (some e)) :
    Program.Ensures (openPipes env) (.start fds e₀)
      (fun p after => p = fds.pipes.1 ∧ after.fds = fds.pipes.2 ∧
        ∀ held, ledger after.events = some held → held.Nodup)
      (fun exit after => exit = .blocked ∨ after.fds.get fds.lowestFree ≠ none) := by
  have stdin := fds.pipe_read .stdin
  have stdout := Table.pipe_frame .stdout stdin
  have stderr := Table.pipe_frame .stderr stdout
  simp only [openPipes, Program.ensures_bind, Program.ensures_pure]
  apply ensures_openPipe env .stdin
  · intro _
    apply ensures_openPipe env .stdout
    · intro _
      apply ensures_openPipe env .stderr
      · intro _
        apply ensures_openPipe env .errno
        · intro _
          refine ⟨rfl, rfl, fun held stands => ?_⟩
          obtain rfl := Option.some.inj stands
          exact Pipes.held_nodup fds.pipes_opened.nodup
        · exact fun _ _ => .inr (stderr ▸ Option.some_ne_none _)
        · exact fun _ => .inl rfl
      · exact fun _ _ => .inr (stdout ▸ Option.some_ne_none _)
      · exact fun _ => .inl rfl
    · exact fun _ _ => .inr (stdin ▸ Option.some_ne_none _)
    · exact fun _ => .inl rfl
  · exact fun e failed => absurd failed (first e)
  · exact fun _ => .inl rfl

/-- With the first pipe created, no return is clean. -/
theorem spawn_dirty (a : Args) {fds : Table} {e₀ : Errno} (parent : 0 < env.pid)
    (first : ∀ e, (env.attempts (.pipe .stdin)).head? ≠ some (some e)) :
    Program.Ensures (spawn env a) (.start fds e₀) (fun _ after => ¬ LeakFree (.start fds e₀) after)
      (fun exit after => exit = .blocked ∨ ¬ LeakFree (.start fds e₀) after) := by
  have opened := fds.pipes_opened
  have free (name : PipeName) (side : Side) : fds.get (fds.pipes.1.fd name side) = none :=
    opened.taken.fresh _ (Pipes.fd_mem_all _ _ _)
  have leaks {once : Fd} {after : Proc} (leaking : Leaking fds.pipes.1.stderr.1 once after) :
      ¬ LeakFree (.start fds e₀) after := leaking.not_leakFree (free .stderr .read)
  simp only [spawn, Program.ensures_bind]
  refine (openPipes_dirty env first).mono ?_ (fun exit after way => way.imp_right ?_)
  swap
  · exact fun leaked clean => leaked (clean.1 ▸ fds.get_lowestFree)
  rintro p q ⟨rfl, table, nodup⟩
  have leaking : Leaking fds.pipes.1.stderr.1 fds.pipes.1.stdout.1 q := by
    refine ⟨?_, fun held stands => List.nodup_iff_count_le_one.mp (nodup held stands) _⟩
    rw [table]
    exact opened.taken.occupied _ (Pipes.fd_mem_all _ .stderr .read)
  refine (closeOnExec_keeps env _ q leaking).mono (fun _ q held => ?_) (fun _ _ held => .inr (leaks held))
  apply ensures_retry (Leaking _ _) _ held
  · exact fun q e _ _ held => Leaking.keepsPassive q _ rfl held
  · intro q _ held
    dsimp only
    rw [if_neg (by omega)]
    refine (parent_dirty env a _ _ opened.nodup ?_).mono (fun _ _ => Overclosed.not_leakFree) ?_
    · exact Leaking.keepsPassive q _ rfl held
    · rintro exit after (held | overclosed)
      · exact .inr (leaks held)
      · exact .inr overclosed.not_leakFree
  · exact fun q e _ held => .inr (leaks (Leaking.keepsPassive q _ rfl held))
  · exact fun q _ _ => .inl rfl

/-- A failing first `pipe(2)` ends the call at once, with nothing opened. -/
theorem run_of_first_pipe_fails (a : Args) (before : Proc) {e : Errno}
    (first : (env.attempts (.pipe .stdin)).head? = some (some e)) :
    run env a before = (.returned none { error := some (strerror env e "pipe(2) for STDIN failed") },
      before.record (.pipe .stdin (.error e))) := by
  have only := run_of_ensures a (fun exit after =>
      exit = .returned none { error := some (strerror env e "pipe(2) for STDIN failed") } ∧
      after = before.record (.pipe .stdin (.error e))) (by
    simp only [spawn, openPipes, Program.ensures_bind]
    apply ensures_openPipe env .stdin
    · exact fun succeeded => absurd (first.symm.trans succeeded) (by simp)
    · intro e' failed
      obtain rfl : e = e' := by simpa using first.symm.trans failed
      exact ⟨rfl, rfl⟩
    · exact fun blocked => absurd (first.symm.trans blocked) (by simp))
  exact Prod.ext only.1 only.2

/-- Once the first pipe exists, returning means having leaked. -/
theorem not_leakFree_of_returned (a : Args) {fds : Table} {e₀ : Errno} (parent : 0 < env.pid)
    (first : ∀ e, (env.attempts (.pipe .stdin)).head? ≠ some (some e)) {pid : Option ℕ} {R : Result}
    {after : Proc} (returned : run env a (.start fds e₀) = (.returned pid R, after)) :
    ¬ LeakFree (.start fds e₀) after := by
  have dirty := run_of_ensures a (fun exit after => exit = .blocked ∨ ¬ LeakFree (.start fds e₀) after)
    ((spawn_dirty env a parent first).mono (fun _ _ leaked => .inr leaked) (fun _ _ way => way))
  rw [returned] at dirty
  exact dirty.resolve_left nofun

end Paths

/-- A call that returns in the parent has leaked nothing exactly when its first `pipe(2)` failed. -/
theorem leakFree_iff (env : Environment) (a : Args) (fds : Table) (e₀ : Errno)
    (parent : 0 < env.pid) {pid : Option ℕ} {R : Result} {after : Proc}
    (returned : run env a (.start fds e₀) = (.returned pid R, after)) :
    LeakFree (.start fds e₀) after ↔
      ∃ e, (env.attempts (.pipe .stdin)).head? = some (some e) := by
  constructor
  · intro clean
    by_contra first
    exact not_leakFree_of_returned env a parent (not_exists.mp first) returned clean
  · rintro ⟨e, first⟩
    rw [run_of_first_pipe_fails env a _ first] at returned
    obtain ⟨-, rfl⟩ := Prod.mk.inj returned
    exact ⟨rfl, rfl, by simp [Proc.start]⟩

/-- A process that may open nothing more. -/
theorem leakFree_iff_exhausted :
    LeakFree (.start .standard 0) ((Proc.start .standard 0).record (.pipe .stdin (.error 24))) ↔
      ∃ e, (Environment.exhausted.attempts (.pipe .stdin)).head? = some (some e) :=
  leakFree_iff .exhausted { exe := "/bin/true" } .standard 0 (by decide)
    (run_of_first_pipe_fails .exhausted { exe := "/bin/true" } (.start .standard 0)
      (show _ = some (some 24) from rfl))

private theorem quiet_returns : (run .quiet { exe := "/bin/true" } (.start .standard 0)).1 =
    .returned (some 7) { stdout := [[]], stderr := [[]], code := some 0 } := by
  decide +kernel

/-- The call that goes well from beginning to end is not clean either. -/
theorem quiet_call_leaks : ¬ ∀ (env : Environment) (a : Args) (fds : Table) (e₀ : Errno)
    (pid : Option ℕ) (R : Result) (after : Proc), 0 < env.pid →
    run env a (.start fds e₀) = (.returned pid R, after) → LeakFree (.start fds e₀) after := by
  intro clean
  have returned : run .quiet { exe := "/bin/true" } (.start .standard 0) =
      (.returned (some 7) { stdout := [[]], stderr := [[]], code := some 0 },
        (run .quiet { exe := "/bin/true" } (.start .standard 0)).2) := by
    rw [← quiet_returns]
  have first : ∀ e, (Environment.quiet.attempts (.pipe .stdin)).head? ≠ some (some e) := by
    intro e
    exact nofun
  exact not_leakFree_of_returned .quiet _ (by decide) first returned
    (clean .quiet _ _ _ _ _ _ (by decide) returned)

end OmniaJit.Exec
