import OmniaJit.Exec.ForkPoint

/-! # How the child fails

The child makes its calls in a fixed order and ends in `_exit(0)` at the first one that fails. The one test of
the child that does not look at a result, `r > 0` in `ffiext.open`, agrees with the call because descriptor
0 is never free there.
-/

namespace OmniaJit.Exec

open OmniaJit.Machine OmniaJit.Posix OmniaJit.FfiExt

/-- The failures of a call are logged as such. -/
def Counts {α : Type} (event : Except Errno α → Event) : Prop := ∀ result, (event result).failure? = errorOf result

/-- A part of the child makes the calls at these places, up to the first one that fails: then the child
exits. If none fails, it leaves the function in the given way, or goes on. -/
def Makes {α : Type} (s : Assignment) (sites : List Site) (way : Option Exit) (program : M α) : Prop :=
  ∀ q, Running q → Program.Ensures program q
    (fun _ after => way = none ∧ s.firstOf sites = none ∧ Running after ∧ Logs q after none)
    (fun exit after => Logs q after (s.firstOf sites) ∧
      (s.firstOf sites ≠ none ∧ exit = .exited ∨ s.firstOf sites = none ∧ way = some exit))

/-- The child exits, whatever it does before. -/
def GivesUp {α : Type} (program : M α) : Prop :=
  ∀ q, Program.Ensures program q (fun _ _ => False) (fun exit after => exit = .exited ∧ ∃ f, Logs q after f)

section Rules

variable {s : Assignment} {α β : Type} {sites sites' : List Site} {way : Option Exit}

theorem makes_pure (value : α) : Makes s [] none (pure value : M α) :=
  fun q running => ⟨rfl, rfl, running, Logs.refl q⟩

theorem makes_throw (exit : Exit) : Makes s [] (some exit) (throw exit : M α) :=
  fun q _ => ⟨Logs.refl q, .inr ⟨rfl, rfl⟩⟩

theorem Makes.bind {first : M α} {rest : α → M β} (head : Makes s sites none first)
    (tail : ∀ value, Makes s sites' way (rest value)) : Makes s (sites ++ sites') way (first >>= rest) := by
  intro q running
  rw [Program.ensures_bind, Assignment.firstOf_append]
  refine (head q running).mono (fun value r held => ?_) (fun exit after ended => ?_)
  · obtain ⟨-, quiet, running, logged⟩ := held
    rw [quiet, Option.none_or]
    refine (tail value r running).mono (fun _ after held => ?_) (fun _ after ended => ?_)
    · exact ⟨held.1, held.2.1, held.2.2.1, logged.trans held.2.2.2⟩
    · exact ⟨logged.trans ended.1, ended.2⟩
  · obtain ⟨logged, ⟨failed, exited⟩ | ⟨-, impossible⟩⟩ := ended
    · obtain ⟨e, first⟩ := Option.ne_none_iff_exists'.mp failed
      rw [first, Option.some_or, ← first]
      exact ⟨logged, .inl ⟨failed, exited⟩⟩
    · exact absurd impossible (Option.some_ne_none exit).symm

/-- Nothing follows a part that leaves the function. -/
theorem Makes.stop {exit : Exit} {first : M α} (head : Makes s sites (some exit) first) (rest : α → M β) :
    Makes s sites (some exit) (first >>= rest) := by
  intro q running
  rw [Program.ensures_bind]
  refine (head q running).mono (fun _ _ held => ?_) (fun _ _ ended => ended)
  exact absurd held.1 (Option.some_ne_none exit)

/-- A call and what depends on its result. -/
theorem makes_retry {event : Except Errno α → Event} {effect : Table → α × Table} (counts : Counts event)
    {site : Site} {rest : Except Errno α → M β} (failed : ∀ e, GivesUp (rest (.error e)))
    (succeeded : ∀ fds : Table, fds.get STDIN ≠ none →
      (effect fds).2.get STDIN ≠ none ∧ Makes s sites way (rest (.ok (effect fds).1))) :
    Makes s (site :: sites) way (retry (syscall event effect) [s.fate site] >>= rest) := by
  intro q running
  rw [Program.ensures_bind, ensures_retry_fate, Assignment.firstOf_cons]
  constructor
  · intro e fate
    have logged : Logs q (q.record (event (.error e))) (some e) := Logs.call q.fds _ (counts (.error e))
    rw [fate, Option.some_or]
    refine (failed e _).mono (fun _ _ impossible => impossible.elim) (fun exit after ended => ?_)
    obtain ⟨exited, f, later⟩ := ended
    exact ⟨logged.trans later, .inl ⟨Option.some_ne_none e, exited⟩⟩
  · intro fate
    obtain ⟨kept, tail⟩ := succeeded q.fds running
    let r := { q with fds := (effect q.fds).2 }.record (event (.ok (effect q.fds).1))
    have running : Running r := kept
    have logged : Logs q r none := Logs.call _ _ (counts (.ok _))
    rw [fate, Option.none_or]
    refine (tail r running).mono (fun _ after held => ?_) (fun _ after ended => ?_)
    · exact ⟨held.1, held.2.1, held.2.2.1, logged.trans held.2.2.2⟩
    · exact ⟨logged.trans ended.1, ended.2⟩

theorem makes_once {event : Except Errno α → Event} {effect : Table → α × Table} (counts : Counts event)
    {site : Site} {rest : Except Errno α → M β} (failed : ∀ e, GivesUp (rest (.error e)))
    (succeeded : ∀ fds : Table, fds.get STDIN ≠ none →
      (effect fds).2.get STDIN ≠ none ∧ Makes s sites way (rest (.ok (effect fds).1))) :
    Makes s (site :: sites) way (once (syscall event effect) [s.fate site] >>= rest) := by
  rw [once_eq_retry]
  exact makes_retry counts failed succeeded

theorem GivesUp.close (fd : Fd) {rest : Unit → M α} (later : GivesUp (rest ())) :
    GivesUp (C.close fd >>= rest) := by
  intro q
  rw [Program.ensures_bind, ensures_close]
  refine (later (q.close fd)).mono (fun _ _ impossible => impossible) (fun exit after ended => ?_)
  obtain ⟨exited, f, logged⟩ := ended
  exact ⟨exited, f, ((Logs.refl q).close fd).trans logged⟩

theorem Makes.close {fd : Fd} (positive : 0 < fd) {rest : Unit → M α} (later : Makes s sites way (rest ())) :
    Makes s sites way (C.close fd >>= rest) := by
  intro q running
  rw [Program.ensures_bind, ensures_close]
  have running : Running (q.close fd) := by
    have other : STDIN ≠ fd := Nat.ne_of_lt positive
    rwa [Running, Proc.close_fds, DescriptorTable.get_close_of_ne _ other]
  have closed := (Logs.refl q).close fd
  refine (later (q.close fd) running).mono (fun _ after held => ?_) (fun _ after ended => ?_)
  · exact ⟨held.1, held.2.1, held.2.2.1, closed.trans held.2.2.2⟩
  · exact ⟨closed.trans ended.1, ended.2⟩

end Rules

section Child

variable {s : Assignment} {pid errnoCount status : ℕ} {sites : List Site} {way : Option Exit} {α : Type}

theorem givesUp_childFailed (p : Pipes) :
    GivesUp (childFailed (s.environment pid errnoCount status) p : M α) := by
  intro q
  simp only [childFailed, errno, Program.ensures_bind, Program.ensures_get, Program.ensures_pure, C.write,
    Assignment.environment]
  rw [ensures_retry_fate]
  exact ⟨fun e _ => ⟨rfl, _, Logs.call _ _ rfl⟩, fun _ => ⟨rfl, _, Logs.call _ _ rfl⟩⟩

/-- A copy of a descriptor, with the source's reaction to its failure. -/
theorem makes_dup2 (oldfd newfd dest : Fd) {rest : Except Errno Unit → M α}
    (failed : ∀ e, GivesUp (rest (.error e))) (succeeded : Makes s sites way (rest (.ok ()))) :
    Makes s (.dup2 dest :: sites) way
      (retry (C.dup2 oldfd newfd) ((s.environment pid errnoCount status).attempts (.dup2 dest)) >>= rest) :=
  makes_retry (fun _ => rfl) failed fun _ occupied => ⟨Table.dup2_occupied occupied, succeeded⟩

/-- A file opened for redirection never gets descriptor 0. -/
theorem makes_open (target : Target) (dest : Fd) {rest : Except Errno Fd → M α}
    (failed : ∀ e, GivesUp (rest (.error e)))
    (succeeded : ∀ fd, 0 < fd → Makes s sites way (rest (.ok fd))) :
    Makes s (.open dest :: sites) way
      (FfiExt.open (s.environment pid errnoCount status) target dest >>= rest) := by
  rw [FfiExt.open, bind_assoc]
  refine makes_retry (fun _ => rfl) failed fun fds occupied => ⟨?_, ?_⟩
  · exact (DescriptorTable.get_set_lowestFree_of_ne_none _ _ occupied).symm ▸ occupied
  · have positive : fds.lowestFree > 0 := Nat.pos_of_ne_zero fun zero => occupied (lowestFree_eq_zero_iff.mp zero)
    simp only [if_pos positive, pure_bind]
    exact succeeded _ positive

/-- A redirection that is not given up over its option. -/
theorem makes_redirect (target : Target) (dest : Stream) {rest : Except String Unit → M α}
    (quiet : raises target dest = false) (failed : ∀ text, GivesUp (rest (.error text)))
    (succeeded : Makes s sites way (rest (.ok ()))) :
    Makes s (outputSites target dest ++ sites) way
      (redirect (s.environment pid errnoCount status) target dest.fd >>= rest) := by
  rw [redirect_eq, outputSites, Option.any_some]
  cases named : target.names dest.other with
  | true =>
    rw [if_pos rfl, redirectCopy, bind_assoc]
    exact makes_dup2 _ _ _ (fun e => failed _) succeeded
  | false =>
    have path : target.isPath = true := by simpa [raises, named] using quiet
    simp only [path, redirectOpen, bind_assoc, Bool.false_eq_true, if_false, if_true, Bool.not_false]
    refine makes_open target dest.fd (fun e => failed _) fun fd positive => ?_
    rw [bind_assoc]
    refine makes_dup2 fd dest.fd dest.fd (fun e => ?_) ?_
    · simp only [bind_assoc]
      exact GivesUp.close fd (failed _)
    · simp only [bind_assoc]
      exact Makes.close positive succeeded

theorem makes_connect (p : Pipes) (target : Option Target) (writer : Fd) (dest : Stream)
    (quiet : raises target dest = false) :
    Makes s (outputSites target dest) none
      (connect (s.environment pid errnoCount status) p target writer dest.fd) := by
  rw [← List.append_nil (outputSites target dest)]
  cases target with
  | none => exact makes_dup2 _ _ _ (fun e => givesUp_childFailed p) (makes_pure ())
  | some target => exact makes_redirect target dest quiet (fun text => givesUp_childFailed p) (makes_pure ())

/-- An option that gives no file name. -/
theorem makes_raises (p : Pipes) {target : Option Target} (writer : Fd) {dest : Stream}
    (raised : raises target dest = true) :
    Makes s [] (some .raised) (connect (s.environment pid errnoCount status) p target writer dest.fd) := by
  obtain ⟨option, rfl, other⟩ := (Option.any_eq_true ..).mp raised
  obtain ⟨named, path⟩ : option.names dest.other = false ∧ option.isPath = false := by simpa using other
  rw [connect, redirect_eq, named, path]
  exact (makes_throw .raised).stop _

theorem makes_connectStdin (p : Pipes) (stdin : Option Bytes) :
    Makes s (if stdin.isSome then [.dup2 STDIN] else []) none
      (connectStdin (s.environment pid errnoCount status) p stdin) := by
  cases stdin with
  | none => exact makes_pure ()
  | some bytes => exact makes_dup2 _ _ _ (fun e => givesUp_childFailed p) (makes_pure ())

theorem makes_setenvs (p : Pipes) (index : ℕ) (pairs : List (String × String)) :
    Makes s ((List.range' index pairs.length).map .setenv) none
      (setenvs (s.environment pid errnoCount status) p index pairs) := by
  induction pairs generalizing index with
  | nil => exact makes_pure ()
  | cons pair rest ih =>
    rw [List.length_cons, List.range'_succ, List.map_cons, setenvs]
    exact makes_once (fun _ => rfl) (fun e => givesUp_childFailed p) fun _ occupied => ⟨occupied, ih (index + 1)⟩

theorem makes_changeDirectory (p : Pipes) (cwd : Option String) :
    Makes s (if cwd.isSome then [.chdir] else []) none
      (changeDirectory (s.environment pid errnoCount status) p cwd) := by
  cases cwd with
  | none => exact makes_pure ()
  | some path =>
    exact makes_once (fun _ => rfl) (fun e => givesUp_childFailed p) fun _ occupied => ⟨occupied, makes_pure ()⟩

/-- The image is replaced, unless `execv` fails. The pipe ends are closed whatever their numbers are. -/
theorem makes_execv (a : Args) (p : Pipes) :
    Makes s [.execv] (some .replaced) (childCloses p >>= fun _ => do
      match ← retry (C.execv a.exe (a.exe :: a.args)) ((s.environment pid errnoCount status).attempts .execv) with
      | .ok _ => throw .replaced
      | .error _ => (childFailed (s.environment pid errnoCount status) p : M α)) := by
  intro q _
  simp only [childCloses, Program.ensures_bind, ensures_close]
  have closed := (((((((Logs.refl q).close p.stdin.2).close p.stdout.1).close p.stderr.1).close p.errno.1).close
    p.stdin.1).close p.stdout.2).close p.stderr.2
  rw [C.execv, Assignment.environment, ensures_retry_fate, Assignment.firstOf_cons]
  constructor
  · intro e fate
    rw [fate, Option.some_or]
    refine (givesUp_childFailed p _).mono (fun _ _ impossible => impossible.elim) (fun exit after ended => ?_)
    obtain ⟨exited, f, later⟩ := ended
    exact ⟨(closed.record _ rfl).trans later, .inl ⟨Option.some_ne_none e, exited⟩⟩
  · intro fate
    rw [fate]
    exact ⟨closed.record _ rfl, .inr ⟨rfl, rfl⟩⟩

/-- How the child ends if none of its calls fails. -/
def Args.childWay (a : Args) : Exit :=
  if raises a.stdout .stdout || raises a.stderr .stderr then .raised else .replaced

/-- The branch of a zero pid. -/
theorem makes_child (a : Args) (p : Pipes) :
    Makes s a.childSites (some a.childWay) (child (s.environment pid errnoCount status) a p) := by
  rw [Args.childSites, Args.childWay]
  refine (makes_connectStdin p a.stdin).bind fun _ => ?_
  cases stdout : raises a.stdout .stdout with
  | true => exact (makes_raises p p.stdout.2 stdout).stop _
  | false =>
    simp only [Bool.false_eq_true, if_false, Bool.false_or]
    refine (makes_connect p a.stdout p.stdout.2 .stdout stdout).bind fun _ => ?_
    cases stderr : raises a.stderr .stderr with
    | true => exact (makes_raises p p.stderr.2 stderr).stop _
    | false =>
      simp only [Bool.false_eq_true, if_false]
      refine (makes_connect p a.stderr p.stderr.2 .stderr stderr).bind fun _ => ?_
      rw [List.range_eq_range']
      refine (makes_setenvs p 0 a.env).bind fun _ => ?_
      refine (makes_changeDirectory p a.cwd).bind fun _ => ?_
      exact makes_execv a p

end Child

section Run

variable {s : Assignment}

theorem Args.childWay_ne (a : Args) : a.childWay ≠ .exited := by
  rw [Args.childWay]
  split_ifs <;> exact Exit.noConfusion

/-- The child exits exactly if one of its calls fails, and that call is its first failure. -/
theorem child_run (forks : s.Forks) (a : Args) (fds : Table) (e₀ : Errno) :
    ((s.child a (.start fds e₀)).1 = .exited ↔ (s.childFailing a).isSome) ∧
      firstFailure (afterFork (s.child a (.start fds e₀)).2.events) = s.childFailing a := by
  apply run_of_ensures a fun exit after =>
    (exit = .exited ↔ (s.childFailing a).isSome) ∧ firstFailure (afterFork after.events) = s.childFailing a
  apply ensures_spawn a fds e₀ (fun _ _ failed => absurd forks failed.1)
  intro _ q atFork
  rw [if_pos rfl]
  refine (makes_child a fds.pipes.1 (q.record _) atFork.running).mono (fun _ _ held => ?_) (fun exit after ended => ?_)
  · exact absurd held.1 (Option.some_ne_none _)
  · obtain ⟨logged, way⟩ := ended
    refine ⟨?_, (atFork.unforked.fork logged).2⟩
    rw [Assignment.childFailing, Option.isSome_iff_ne_none]
    rcases way with ⟨failed, exited⟩ | ⟨quiet, other⟩
    · exact iff_of_true exited failed
    · obtain rfl := Option.some.inj other
      exact iff_of_false a.childWay_ne (not_not.mpr quiet)

theorem reports_iff (forks : s.Forks) (a : Args) (fds : Table) (e₀ : Errno) :
    s.Reports a (.start fds e₀) ↔ s.ChildTells a := by
  rw [Assignment.Reports, Assignment.ChildTells, (child_run forks a fds e₀).1]

theorem waitStatus_eq (forks : s.Forks) (a : Args) (fds : Table) (e₀ : Errno) :
    s.waitStatus a (.start fds e₀) = s.exitWord a := by
  rw [Assignment.waitStatus, Assignment.exitWord]
  exact if_congr (child_run forks a fds e₀).1 rfl rfl

end Run

end OmniaJit.Exec
