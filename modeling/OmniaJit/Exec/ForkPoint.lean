import OmniaJit.Exec.Fates

/-! # The call up to `fork`

Both processes have the calls up to `fork` in common. Where they part, descriptor 0 refers to something, the
descriptors the parent is about to close are open, and its errno is what it was unless `F_GETFD` has failed.
-/

namespace OmniaJit.Exec

open OmniaJit.Machine OmniaJit.Posix OmniaJit.FfiExt

section Rules

variable {α : Type} {event : Except Errno α → Event} {effect : Table → α × Table}
  {post : Except Errno α → Proc → Prop} {exit : Exit → Proc → Prop}

/-- The fate of a retried call is the fate of its only attempt. -/
theorem ensures_retry_fate (s : Assignment) (site : Site) (q : Proc) :
    Program.Ensures (retry (syscall event effect) [s.fate site]) q post exit ↔
      (∀ e, s.fate site = some e → post (.error e) (q.record (event (.error e)))) ∧
      (s.fate site = none → post (.ok (effect q.fds).1)
        ({ q with fds := (effect q.fds).2 }.record (event (.ok (effect q.fds).1)))) := by
  cases fate : s.fate site with
  | none => simp [retry, ensures_syscall]
  | some e => simp [retry, ensures_syscall, Program.ensures_ite, s.lasting site e fate]

/-- A single attempt is as good as retries of a call that fails for good. -/
theorem once_eq_retry (s : Assignment) (site : Site) :
    once (syscall event effect) [s.fate site] = retry (syscall event effect) [s.fate site] := by
  funext q
  cases fate : s.fate site with
  | none => rfl
  | some e => simp [once, retry, syscall, bind, EStateM.bind, s.lasting site e fate, pure, EStateM.pure]

end Rules

/-- The errno has the value `e`, and the descriptors that are closed next are open. -/
structure Ready (e : Errno) (fds : List Fd) (q : Proc) : Prop where
  errno : q.errno = e
  distinct : fds.Nodup
  opened : ∀ fd ∈ fds, q.fds.get fd ≠ none

theorem Ready.close {e : Errno} {fd : Fd} {rest : List Fd} {q : Proc}
    (ready : Ready e (fd :: rest) q) : Ready e rest (q.close fd) where
  errno := by
    rw [Proc.close_errno (ready.opened fd (List.mem_cons_self ..)), ready.errno]
  distinct := (List.nodup_cons.mp ready.distinct).2
  opened other member := by
    have different : other ≠ fd := fun same => (List.nodup_cons.mp ready.distinct).1 (same ▸ member)
    rw [Proc.close_fds, DescriptorTable.get_close_of_ne _ different]
    exact ready.opened other (List.mem_cons_of_mem _ member)

theorem Ready.record {e : Errno} {fds : List Fd} {q : Proc} (ready : Ready e fds q) {event : Event}
    (succeeded : event.error? = none) : Ready e fds (q.record event) where
  errno := by rw [Proc.record_errno, succeeded, Option.getD_none, ready.errno]
  distinct := ready.distinct
  opened := ready.opened

/-- A failing call leaves its own errno. -/
theorem Ready.fail {e e' : Errno} {fds : List Fd} {q : Proc} (ready : Ready e fds q) {event : Event}
    (failed : event.error? = some e') : Ready e' fds (q.record event) where
  errno := by rw [Proc.record_errno, failed, Option.getD_some]
  distinct := ready.distinct
  opened := ready.opened

/-- The descriptors of the parent in the order its first steps close them. -/
def Pipes.parentClosed (p : Pipes) : List Fd :=
  [p.stdin.1, p.stdout.2, p.stderr.2, p.stdin.2, p.errno.2, p.errno.1]

/-- The child as long as nothing has gone wrong: descriptor 0 refers to something. -/
def Running (q : Proc) : Prop := q.fds.get STDIN ≠ none

/-- The ends the parent closes are open when the pipes have been made. -/
theorem ready_pipes (fds : Table) (e₀ : Errno) (events : List Event) :
    Ready e₀ fds.pipes.1.parentClosed { fds := fds.pipes.2, errno := e₀, events := events } where
  errno := rfl
  distinct := by
    have distinct := fds.pipes_opened.nodup
    simp only [Pipes.all, Pipes.parentClosed, List.nodup_cons, List.mem_cons, List.not_mem_nil,
      not_or, or_false] at distinct ⊢
    grind
  opened fd member := by
    have opened := fds.pipes_opened
    refine opened.taken.occupied fd ?_
    simp only [Pipes.parentClosed, Pipes.all, List.mem_cons, List.not_mem_nil, or_false] at member ⊢
    tauto

theorem running_pipes (fds : Table) : fds.pipes.2.get STDIN ≠ none := by
  have opened := fds.pipes_opened
  by_cases member : STDIN ∈ fds.pipes.1.all
  · exact opened.taken.occupied _ member
  · rw [opened.taken.frame _ member]
    exact fun free => member
      (opened.taken.least _ (Pipes.fd_mem_all _ .stdin .write) STDIN opened.above.1 free)

/-- The process that is forked. -/
structure AtFork (s : Assignment) (fds : Table) (e₀ : Errno) (q : Proc) : Prop where
  unforked : Unforked q (s.firstOf setupSites)
  ready : Ready ((s.fate .getfd).getD e₀) fds.pipes.1.parentClosed q
  running : Running q

/-- The function has returned before `fork`, with the error of a call that it tests. -/
def FailsSetup (s : Assignment) (exit : Exit) (after : Proc) : Prop :=
  ¬ s.Forks ∧ Unforked after (s.firstOf setupSites) ∧
    ∃ e, s.firstOf testedSites = some e ∧ Blames s.strerror e exit

section Entry

variable {s : Assignment} {pid errnoCount status : ℕ}

theorem fate_of_head {site : Site} {f : Option Errno} :
    ((s.environment pid errnoCount status).attempts site).head? = some f ↔ s.fate site = f := by
  simp [Assignment.environment]

/-- A call that is tested fails after others that have succeeded. -/
theorem failsSetup_record {q : Proc} {f : Option Errno} (unforked : Unforked q f) {event : Event}
    (other : event.forks = false) {e : Errno} (failure : event.failure? = some e)
    (setup : s.firstOf setupSites = f.or (some e)) (tested : s.firstOf testedSites = some e) {m : String}
    (member : m ∈ messages) :
    FailsSetup s (.returned none { error := some (strerror (s.environment pid errnoCount status) e m) })
      (q.record event) := by
  refine ⟨fun forks => ?_, ?_, e, tested, _, rfl, m, member, rfl⟩
  · rw [forks.tested] at tested
    exact absurd tested (Option.some_ne_none e).symm
  · rw [setup]
    exact unforked.call q.fds other failure

/-- One of the four pipes. -/
theorem openPipe_report (name : PipeName) {m : String} (member : m ∈ messages) {earlier later later' : List Site}
    (quiet : s.firstOf earlier = none) (setup : setupSites = earlier ++ .pipe name :: later)
    (tested : testedSites = earlier ++ .pipe name :: later')
    {q : Proc} (unforked : Unforked q none) {post : Fd × Fd → Proc → Prop}
    (succeeded : ∀ r : Proc, s.firstOf (earlier ++ [.pipe name]) = none → Unforked r none →
      r.fds = (q.fds.pipe name).2 → r.errno = q.errno → post (q.fds.pipe name).1 r) :
    Program.Ensures (openPipe (s.environment pid errnoCount status) name m) q post (FailsSetup s) := by
  refine ensures_openPipe _ name m (fun fate => ?_) (fun e fate => ?_)
    (fun blocked => absurd blocked (Option.some_ne_none _))
  · rw [fate_of_head] at fate
    apply succeeded
    · rw [Assignment.firstOf_append, quiet, Assignment.firstOf_cons, fate]
      rfl
    · exact unforked.call _ rfl rfl
    · rfl
    · rfl
  · rw [fate_of_head] at fate
    have first (rest : List Site) : s.firstOf (earlier ++ .pipe name :: rest) = some e := by
      rw [Assignment.firstOf_append, quiet, Assignment.firstOf_cons, fate]
      rfl
    exact failsSetup_record unforked rfl rfl (setup ▸ first later) (tested ▸ first later') member

theorem openPipes_report (fds : Table) (e₀ : Errno) :
    Program.Ensures (openPipes (s.environment pid errnoCount status)) (.start fds e₀)
      (fun p q => p = fds.pipes.1 ∧ (∀ name, s.fate (.pipe name) = none) ∧ Unforked q none ∧
        Ready e₀ p.parentClosed q ∧ Running q)
      (FailsSetup s) := by
  simp only [openPipes, Program.ensures_bind, Program.ensures_pure]
  have start : Unforked (.start fds e₀) none := ⟨fun _ member => absurd member List.not_mem_nil, rfl⟩
  refine openPipe_report .stdin (by decide) s.firstOf_nil rfl rfl start fun q₁ quiet single fds₁ errno₁ => ?_
  refine openPipe_report .stdout (by decide) quiet rfl rfl single fun q₂ quiet single fds₂ errno₂ => ?_
  refine openPipe_report .stderr (by decide) quiet rfl rfl single fun q₃ quiet single fds₃ errno₃ => ?_
  refine openPipe_report .errno (by decide) quiet rfl rfl single fun q₄ quiet single fds₄ errno₄ => ?_
  have succeeded : ∀ site ∈ [Site.pipe .stdin, .pipe .stdout, .pipe .stderr, .pipe .errno], s.fate site = none :=
    List.findSome?_eq_none_iff.mp quiet
  have errno : q₄.errno = e₀ := by
    rw [errno₄, errno₃, errno₂, errno₁]
    rfl
  rw [fds₃, fds₂, fds₁] at fds₄ ⊢
  have table : q₄.fds = fds.pipes.2 := fds₄
  have ready := ready_pipes fds e₀ q₄.events
  rw [← table, ← errno] at ready
  refine ⟨rfl, fun name => succeeded _ ?_, single, ?_, ?_⟩
  · cases name <;> simp
  · rw [← errno]
    exact ready
  · rw [Running, table]
    exact running_pipes fds

/-- The flag calls: only the second one is looked at, but the first may leave its errno behind. -/
theorem closeOnExec_report (pipes : ∀ name, s.fate (.pipe name) = none) (p : Pipes) {e : Errno} {fds : List Fd}
    {q : Proc} (unforked : Unforked q none) (ready : Ready e fds q) (running : Running q) :
    Program.Ensures (closeOnExec (s.environment pid errnoCount status) p) q
      (fun _ after => s.fate .setfd = none ∧ Unforked after (s.fate .getfd) ∧
        Ready ((s.fate .getfd).getD e) fds after ∧ Running after)
      (FailsSetup s) := by
  have flags : Program.Ensures (retry (C.getfd p.errno.2) [s.fate .getfd]) q
      (fun _ after => Unforked after (s.fate .getfd) ∧ Ready ((s.fate .getfd).getD e) fds after ∧ Running after)
      (FailsSetup s) := by
    rw [C.getfd, ensures_retry_fate]
    refine ⟨fun e' failed => ?_, fun read => ?_⟩
    · rw [failed]
      exact ⟨unforked.call q.fds rfl rfl, ready.fail rfl, running⟩
    · rw [read]
      exact ⟨unforked.call q.fds rfl rfl, ready.record rfl, running⟩
  simp only [closeOnExec, Program.ensures_bind, Assignment.environment]
  refine flags.mono (fun _ r held => ?_) (fun _ _ ended => ended)
  obtain ⟨unforked, ready, running⟩ := held
  rw [C.setfd, ensures_retry_fate]
  refine ⟨fun e failed => ?_, fun set => ⟨set, ?_, ⟨ready.errno, ready.distinct, fun fd member => ?_⟩, ?_⟩⟩
  · have setup : s.firstOf setupSites = (s.fate .getfd).or (some e) := by simp [setupSites, pipes, failed]
    have tested : s.firstOf testedSites = some e := by simp [testedSites, pipes, failed]
    exact failsSetup_record unforked rfl rfl setup tested (by decide)
  · rw [← Option.or_none (o := s.fate .getfd)]
    exact unforked.call _ rfl rfl
  · exact Table.setCloexec_occupied (ready.opened fd member)
  · exact Table.setCloexec_occupied running

/-- A run of the function is a run of one of the two branches from the process that is forked, unless it
ends before that. -/
theorem ensures_spawn (a : Args) (fds : Table) (e₀ : Errno) {post : Option ℕ × Result → Proc → Prop}
    {exit : Exit → Proc → Prop} (failed : ∀ way after, FailsSetup s way after → exit way after)
    (forked : s.Forks → ∀ q, AtFork s fds e₀ q → Program.Ensures
      (if pid = 0 then child (s.environment pid errnoCount status) a fds.pipes.1
        else parent (s.environment pid errnoCount status) a fds.pipes.1 pid)
      (q.record (.fork (.ok pid))) post exit) :
    Program.Ensures (spawn (s.environment pid errnoCount status) a) (.start fds e₀) post exit := by
  simp only [spawn, Program.ensures_bind]
  refine (openPipes_report fds e₀).mono (fun p q held => ?_) failed
  obtain ⟨rfl, pipes, unforked, ready, running⟩ := held
  refine (closeOnExec_report pipes _ unforked ready running).mono (fun _ r held => ?_) failed
  obtain ⟨setfd, unforked, ready, running⟩ := held
  simp only [C.fork, Assignment.environment]
  rw [ensures_retry_fate]
  constructor
  · intro e refused
    have setup : s.firstOf setupSites = (s.fate .getfd).or (some e) := by simp [setupSites, pipes, setfd, refused]
    have tested : s.firstOf testedSites = some e := by simp [testedSites, pipes, setfd, refused]
    exact failed _ _ (failsSetup_record unforked rfl rfl setup tested (by decide))
  · intro fork
    have forks : s.Forks := ⟨pipes, setfd, fork⟩
    exact forked forks r ⟨forks.setup ▸ unforked, ready, running⟩

end Entry

end OmniaJit.Exec
