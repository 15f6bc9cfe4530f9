import OmniaJit.Data.Separator
import OmniaJit.Exec.ChildFailure

/-! # What the parent reports

The parent's result is a function of the fates: the first failing call of a fixed list decides the error, a
failure of the child is reported with whatever errno the parent last set, and the calls that are not on the
list are never reported.
-/

namespace OmniaJit.Exec

open OmniaJit.Data OmniaJit.Machine OmniaJit.Posix OmniaJit.FfiExt

/-- The result of the parent as a function of the fates. -/
def Assignment.Tells (s : Assignment) (a : Args) (e₀ : Errno) (exit : Exit) : Prop :=
  match s.noticed a e₀ with
  | some e => Blames s.strerror e exit
  | none =>
      if Normal (s.exitWord a) then Completes (exitStatus (s.exitWord a)) exit
      else exit = .returned none { error := some "Killed." }

section Stages

variable (s : Assignment) {count status : ℕ}

theorem sendStdin_report (p : Pipes) (stdin : Option Bytes) {e : Errno} {rest : List Fd} {q : Proc}
    (ready : Ready e (p.stdin.2 :: rest) q) :
    Program.Ensures (sendStdin (s.environment s.pid count status) p stdin) q
      (fun _ after => Ready e rest after ∧ (if stdin.isSome then s.fate .stdinWrite else none) = none ∧
        Logs q after none)
      (fun exit after => ∃ e, (if stdin.isSome then s.fate .stdinWrite else none) = some e ∧
        Blames s.strerror e exit ∧ Logs q after (some e)) := by
  cases stdin with
  | none => exact ⟨ready.close, rfl, (Logs.refl q).close _⟩
  | some bytes =>
    simp only [sendStdin, Program.ensures_bind, C.write, Assignment.environment]
    rw [ensures_retry_fate]
    refine ⟨fun e failed => ⟨e, failed, ⟨_, rfl, _, ?_, rfl⟩, Logs.call _ _ rfl⟩, fun sent => ?_⟩
    · simp [messages]
    · exact ⟨Ready.close (Ready.record (e := e) (q := q) ready rfl), sent, Logs.close (Logs.call _ _ rfl) _⟩

/-- The report of a child's failure carries the parent's errno. -/
theorem readErrno_report (p : Pipes) {e : Errno} {rest : List Fd} {q : Proc}
    (ready : Ready e (p.errno.2 :: p.errno.1 :: rest) q) :
    Program.Ensures (readErrno (s.environment s.pid count status) p) q
      (fun _ after => ¬ (0 < count ∧ s.fate .errnoRead = none) ∧ Logs q after (s.fate .errnoRead))
      (fun exit after => (0 < count ∧ s.fate .errnoRead = none) ∧ Blames s.strerror e exit ∧ Logs q after none) := by
  simp only [readErrno, Program.ensures_bind, ensures_close, C.read, Assignment.environment]
  have closed := (Logs.refl q).close p.errno.2
  rw [ensures_retry_fate]
  refine ⟨fun e failed => ?_, fun read => ?_⟩
  · rw [failed]
    refine ⟨fun both => Option.some_ne_none e both.2, ?_⟩
    exact Logs.close (closed.record _ rfl) _
  · rw [read]
    have logged : Logs q (Proc.record _ (.read p.errno.1 (.ok count))) none := closed.record _ rfl
    by_cases reported : 0 < count
    · have recorded : Ready e _ (Proc.record _ (.read p.errno.1 (.ok count))) := ready.close.record rfl
      have ready := recorded.close
      simp only [gt_iff_lt, reported, if_true, fail, FfiExt.errno, Program.ensures_bind,
        Program.ensures_get, Program.ensures_pure, Program.ensures_throw]
      refine ⟨⟨trivial, trivial⟩, ⟨_, rfl, "exec failed", by simp [messages], ?_⟩, logged.close _⟩
      rw [← ready.errno]
      rfl
    · simp only [gt_iff_lt, reported, if_false, Program.ensures_pure, false_and, not_false_eq_true, true_and]
      exact logged.close _

theorem reap_report {q : Proc} (pid : ℕ) :
    Program.Ensures (reap (s.environment s.pid count status) pid) q
      (fun ret after => s.fate .waitpid = none ∧ Normal status ∧ ret = exitStatus status ∧ Logs q after none)
      (fun exit after => (∃ e, s.fate .waitpid = some e ∧ Blames s.strerror e exit ∧ Logs q after (some e)) ∨
        (s.fate .waitpid = none ∧ ¬ Normal status ∧
          exit = .returned none { error := some "Killed." } ∧ Logs q after none)) := by
  simp only [reap, Program.ensures_bind, C.waitpid, Assignment.environment]
  rw [ensures_retry_fate]
  refine ⟨fun e failed => ?_, fun waited => ?_⟩
  · exact .inl ⟨e, failed, ⟨_, rfl, "waitpid(2) failed", by simp [messages], rfl⟩, Logs.call _ _ rfl⟩
  · by_cases normal : status &&& 0x7f = 0
    · simp only [normal, if_true, Program.ensures_pure]
      exact ⟨waited, normal, rfl, Logs.call _ _ rfl⟩
    · simp only [normal, if_false, Program.ensures_throw]
      exact .inr ⟨waited, normal, trivial, Logs.call _ _ rfl⟩

/-- Every stream ends, so the read loop does. Only the read that ends it can fail. -/
theorem readLines_total (i : Fd) (bytes : Bytes) {ending : Except Errno (Option Byte)}
    (ends : ∀ e, ending = .error e → ¬ Transient e) (last : ∀ byte, ending ≠ .ok (some byte))
    (o : List Bytes) (line : Bytes) (q : Proc) :
    Program.Ensures (readLines i (bytes.map (fun byte => .ok (some byte)) ++ [ending]) o line) q
      (fun _ after => Logs q after (errorOf ending)) (fun _ _ => False) := by
  induction bytes generalizing o line q with
  | nil =>
    have logged (event : Event) : Logs q ((q.record event).close i) event.failure? :=
      Logs.close (Logs.call q.fds event rfl) i
    cases ending with
    | error e =>
      simp only [List.map_nil, List.nil_append, readLines, Program.ensures_bind, Program.ensures_modify,
        if_neg (ends e rfl), ensures_close, Program.ensures_pure]
      exact logged (.read i (.error e))
    | ok byte =>
      cases byte with
      | some byte => exact absurd rfl (last byte)
      | none => exact logged (.read i (.ok 0))
  | cons byte rest ih =>
    have logged : Logs q (q.record (.read i (.ok 1))) none := Logs.call q.fds _ rfl
    simp only [List.map_cons, List.cons_append, readLines, Program.ensures_bind, Program.ensures_modify]
    split_ifs
    · exact (ih _ _ _).mono (fun _ _ later => logged.trans later) (fun _ _ impossible => impossible)
    · exact (ih _ _ _).mono (fun _ _ later => logged.trans later) (fun _ _ impossible => impossible)

theorem output_report (i : Fd) (stream : Stream) (q : Proc) :
    Program.Ensures (output (s.environment s.pid count status) i stream) q
      (fun result after => Logs q after (s.streamFailing stream) ∧ match result with
        | .error text => ∃ e, s.fate (.setfl stream) = some e ∧
            text = "fcntl(2) failed" ++ ": " ++ s.strerror e
        | .ok _ => s.fate (.setfl stream) = none)
      (fun _ _ => False) := by
  have flags : Program.Ensures (once (syscall (Event.getfl i) fun fds => ((), fds))
      [s.fate (.getfl stream)]) q (fun _ after => Logs q after (s.fate (.getfl stream))) (fun _ _ => False) := by
    rw [once_eq_retry, ensures_retry_fate]
    refine ⟨fun e failed => ?_, fun read => ?_⟩
    · rw [failed]
      exact Logs.call _ _ rfl
    · rw [read]
      exact Logs.call _ _ rfl
  simp only [output, Program.ensures_bind, C.getfl, C.setfl, Assignment.environment]
  refine flags.mono (fun _ r logged => ?_) (fun _ _ impossible => impossible)
  rw [ensures_retry_fate]
  refine ⟨fun e failed => ⟨?_, e, failed, rfl⟩, fun set => ?_⟩
  · simp only [Assignment.streamFailing, Assignment.firstOf_cons, failed, Option.some_or, Option.or_assoc]
    exact logged.record _ rfl
  · simp only [Program.ensures_bind, Program.ensures_pure]
    refine (readLines_total i (s.bytes stream) (fun e failed => ?_) (fun byte => ?_) [] [] _).mono
      (fun _ after read => ⟨?_, set⟩) (fun _ _ impossible => impossible)
    · cases ending : s.ending stream with
      | none => simp [ending] at failed
      | some e' =>
        obtain rfl : e' = e := by simpa [ending] using failed
        exact s.ends stream e' ending
    · cases s.ending stream <;> simp
    · have ending : s.streamFailing stream = ((s.fate (.getfl stream)).or none).or (s.ending stream) := by
        simp only [Assignment.streamFailing, Assignment.firstOf_cons, set, Option.none_or, Assignment.firstOf_nil]
      rw [ending]
      cases last : s.ending stream with
      | none =>
        rw [last] at read
        exact (logged.record _ rfl).trans read
      | some e =>
        rw [last] at read
        exact (logged.record _ rfl).trans read

theorem collect_report (i : Fd) (stream : Stream) (R : Result) {q : Proc} :
    Program.Ensures (collect (s.environment s.pid count status) i stream R) q
      (fun _ after => s.fate (.setfl stream) = none ∧ Logs q after (s.streamFailing stream))
      (fun exit after => ∃ e, s.fate (.setfl stream) = some e ∧ Blames s.strerror e exit ∧
        Logs q after (s.streamFailing stream)) := by
  simp only [collect, Program.ensures_bind, ensures_close]
  refine (output_report s i stream q).mono (fun result r held => ?_) (fun _ _ impossible => impossible.elim)
  obtain ⟨logged, told⟩ := held
  cases result with
  | error text =>
    obtain ⟨e, failed, rfl⟩ := told
    exact ⟨e, failed, ⟨_, rfl, "fcntl(2) failed", by simp [messages], rfl⟩, logged.close _⟩
  | ok o => exact ⟨told, logged.close _⟩

theorem finish_report (a : Args) (pid ret : ℕ) {R : Result} (code : R.code = some ret)
    (error : R.error = none) (q : Proc) :
    Program.Ensures (finish a pid ret R) q
      (fun value after => Completes ret (.returned value.1 value.2) ∧ after = q)
      (fun exit after => Completes ret exit ∧ after = q) := by
  simp only [finish]
  split_ifs
  · exact ⟨⟨R, .inr ⟨_, rfl⟩, code, error⟩, rfl⟩
  · exact ⟨⟨R, .inl rfl, code, error⟩, rfl⟩
  · exact ⟨⟨R, .inr ⟨_, rfl⟩, code, error⟩, rfl⟩

theorem streamFailing_or {stream : Stream} {e : Errno} (failed : s.fate (.setfl stream) = some e)
    (f : Option Errno) : (s.streamFailing stream).or f = s.streamFailing stream := by
  rw [Assignment.streamFailing, Assignment.firstOf_cons, Assignment.firstOf_cons, failed]
  cases s.fate (.getfl stream) <;> rfl

/-- How a call ends that goes on to collect the output: a failing `F_SETFL` is all it reports. -/
def Assignment.Collects (code : ℕ) (exit : Exit) : Prop :=
  match s.firstOf [.setfl .stdout, .setfl .stderr] with
  | some e => Blames s.strerror e exit
  | none => Completes code exit

/-- Both streams, and the end of the call. -/
theorem outputs_report (a : Args) (p : Pipes) (pid ret : ℕ) (q : Proc) :
    Program.Ensures (do
        let stdout ← collect (s.environment s.pid count status) p.stdout.1 .stdout { code := some ret }
        let stderr ← collect (s.environment s.pid count status) p.stderr.1 .stderr
          { stdout := stdout, code := some ret }
        finish a pid ret { stdout := stdout, stderr := stderr, code := some ret }) q
      (fun value after => s.Collects ret (.returned value.1 value.2) ∧
        Logs q after ((s.streamFailing .stdout).or (s.streamFailing .stderr)))
      (fun exit after => s.Collects ret exit ∧
        Logs q after ((s.streamFailing .stdout).or (s.streamFailing .stderr))) := by
  simp only [Assignment.Collects, Assignment.firstOf_cons, Assignment.firstOf_nil, Option.or_none,
    Program.ensures_bind]
  refine (collect_report s p.stdout.1 .stdout _).mono (fun stdout q₁ held => ?_) (fun exit after ended => ?_)
  swap
  · obtain ⟨e, failed, blames, logged⟩ := ended
    rw [failed, streamFailing_or s failed]
    exact ⟨blames, logged⟩
  obtain ⟨set, logged⟩ := held
  rw [set, Option.none_or]
  refine (collect_report s p.stderr.1 .stderr _).mono (fun stderr q₂ held => ?_) (fun exit after ended => ?_)
  swap
  · obtain ⟨e, failed, blames, logged'⟩ := ended
    rw [failed]
    exact ⟨blames, logged.trans logged'⟩
  obtain ⟨set, logged'⟩ := held
  rw [set]
  refine (finish_report a pid ret rfl rfl q₂).mono (fun _ after held => ?_) (fun exit after ended => ?_)
  · obtain ⟨completes, rfl⟩ := held
    exact ⟨completes, logged.trans logged'⟩
  · obtain ⟨completes, rfl⟩ := ended
    exact ⟨completes, logged.trans logged'⟩

end Stages

section Parent

variable {s : Assignment} {a : Args} {e₀ : Errno}

theorem tells_of_blames {e : Errno} {exit : Exit} (same : s.noticed a e₀ = some e)
    (blames : Blames s.strerror e exit) : s.Tells a e₀ exit := by
  rwa [Assignment.Tells, same]

/-- What is left to notice once the child has told nothing, or not been heard. -/
theorem noticed_of_silent (forks : s.Forks) (sent : (if a.stdin.isSome then s.fate .stdinWrite else none) = none)
    (silent : ¬ (s.ChildTells a ∧ s.fate .errnoRead = none)) : s.noticed a e₀ =
      (s.fate .waitpid).or (if Normal (s.exitWord a) then s.firstOf [.setfl .stdout, .setfl .stderr] else none) := by
  rw [Assignment.noticed, forks.tested, sent, if_neg silent, Option.none_or, Option.none_or, Option.none_or]

/-- The failures of a parent that goes on after the errno pipe. -/
theorem parentFailing_of_silent (sent : (if a.stdin.isSome then s.fate .stdinWrite else none) = none)
    (silent : ¬ (s.ChildTells a ∧ s.fate .errnoRead = none)) : s.parentFailing a =
      (s.fate .errnoRead).or ((s.fate .waitpid).or
        (if Normal (s.exitWord a) then (s.streamFailing .stdout).or (s.streamFailing .stderr) else none)) := by
  rw [Assignment.parentFailing, sent, Option.none_or]
  cases read : s.fate .errnoRead with
  | some e => rfl
  | none => rw [if_neg fun tells => silent ⟨tells, read⟩]

/-- The branch of a positive pid. -/
theorem parent_report {count status : ℕ} (forks : s.Forks) (told : 0 < count ↔ s.ChildTells a)
    (word : status = s.exitWord a) (p : Pipes) (pid : ℕ) {q : Proc}
    (ready : Ready ((s.fate .getfd).getD e₀) p.parentClosed q) :
    Program.Ensures (parent (s.environment s.pid count status) a p pid) q
      (fun value after => s.Tells a e₀ (.returned value.1 value.2) ∧ Logs q after (s.parentFailing a))
      (fun exit after => s.Tells a e₀ exit ∧ Logs q after (s.parentFailing a)) := by
  subst word
  rw [parent, Program.ensures_bind, ensures_close, Program.ensures_bind, ensures_close, Program.ensures_bind,
    ensures_close, Program.ensures_bind]
  have closed := (((Logs.refl q).close p.stdin.1).close p.stdout.2).close p.stderr.2
  refine (sendStdin_report s p a.stdin ready.close.close.close).mono (fun _ q₁ held => ?_) (fun exit after ended => ?_)
  swap
  · obtain ⟨e, failed, blames, logged⟩ := ended
    constructor
    · apply tells_of_blames _ blames
      rw [Assignment.noticed, forks.tested, failed]
      rfl
    · rw [Assignment.parentFailing, failed]
      exact closed.trans logged
  obtain ⟨ready, sent, logged⟩ := held
  have logged₁ := closed.trans logged
  rw [Program.ensures_bind]
  refine (readErrno_report s p ready).mono (fun _ q₂ held => ?_) (fun exit after ended => ?_)
  swap
  · obtain ⟨⟨count, read⟩, blames, logged⟩ := ended
    have tells := told.mp count
    constructor
    · apply tells_of_blames _ blames
      rw [Assignment.noticed, forks.tested, sent, if_pos ⟨tells, read⟩]
      rfl
    · rw [Assignment.parentFailing, sent, read, if_pos tells]
      exact logged₁.trans logged
  obtain ⟨silent, logged⟩ := held
  rw [told] at silent
  rw [parentFailing_of_silent sent silent]
  have noticed : s.noticed a e₀ = _ := noticed_of_silent forks sent silent
  have logged₂ : Logs q q₂ (s.fate .errnoRead) := logged₁.trans logged
  rw [Program.ensures_bind]
  refine (reap_report s pid).mono (fun ret q₃ held => ?_) (fun exit after ended => ?_)
  swap
  · rcases ended with ⟨e, failed, blames, logged⟩ | ⟨waited, killed, rfl, logged⟩
    · rw [failed] at noticed ⊢
      exact ⟨tells_of_blames noticed blames, logged₂.trans logged⟩
    · rw [waited, if_neg killed, Option.none_or] at noticed ⊢
      refine ⟨?_, logged₂.trans logged⟩
      rw [Assignment.Tells, noticed]
      exact (if_neg killed).mpr rfl
  obtain ⟨waited, normal, rfl, logged⟩ := held
  rw [waited, if_pos normal] at noticed ⊢
  have logged₃ := logged₂.trans logged
  rw [Option.or_none] at logged₃
  have tells {exit : Exit} (collects : s.Collects (exitStatus (s.exitWord a)) exit) : s.Tells a e₀ exit := by
    rw [Assignment.Tells, noticed, if_pos normal]
    exact collects
  refine (outputs_report s a p pid _ q₃).mono (fun _ after held => ?_) (fun exit after ended => ?_)
  · exact ⟨tells held.1, logged₃.trans held.2⟩
  · exact ⟨tells ended.1, logged₃.trans ended.2⟩

/-- The whole run of the parent. -/
theorem parent_run (s : Assignment) (a : Args) (fds : Table) (e₀ : Errno) :
    s.Tells a e₀ (s.parent a (.start fds e₀)).1 ∧
      firstFailure (beforeFork (s.parent a (.start fds e₀)).2.events) = s.firstOf setupSites ∧
      (s.Forks → firstFailure (afterFork (s.parent a (.start fds e₀)).2.events) = s.parentFailing a) := by
  apply run_of_ensures a fun exit after => s.Tells a e₀ exit ∧
    firstFailure (beforeFork after.events) = s.firstOf setupSites ∧
    (s.Forks → firstFailure (afterFork after.events) = s.parentFailing a)
  apply ensures_spawn
  · rintro exit after ⟨alone, unforked, e, failed, blames⟩
    refine ⟨tells_of_blames ?_ blames, unforked.beforeFork, fun forks => absurd forks alone⟩
    rw [Assignment.noticed, failed]
    rfl
  · intro forks q atFork
    have told : 0 < (if s.Reports a (.start fds e₀) then 4 else 0) ↔ s.ChildTells a := by
      rw [← reports_iff forks a fds e₀]
      split_ifs with reports <;> simp [reports]
    have word := waitStatus_eq forks a fds e₀
    rw [if_neg (Nat.ne_of_gt s.forked)]
    refine (parent_report forks told word _ s.pid (atFork.ready.record rfl)).mono (fun _ after held => ?_)
      (fun _ after ended => ?_)
    · obtain ⟨before, later⟩ := atFork.unforked.fork held.2
      exact ⟨held.1, before, fun _ => later⟩
    · obtain ⟨before, later⟩ := atFork.unforked.fork ended.2
      exact ⟨ended.1, before, fun _ => later⟩

end Parent

section Messages

theorem messages_plain : ∀ m ∈ messages, ':' ∉ m.toList := by decide

/-- The text in an error is what follows the first colon. -/
theorem message_text_inj {m m' text text' : String} (member : m ∈ messages) (member' : m' ∈ messages)
    (same : m ++ ": " ++ text = m' ++ ": " ++ text') : text = text' := by
  have chars := congrArg String.toList same
  simp only [String.toList_append, List.append_assoc] at chars
  have rest := (append_separator_inj (messages_plain m member) (messages_plain m' member') chars).2
  exact String.toList_inj.mp (List.cons.inj rest).2

theorem killed_ne_message {m : String} (text : String) : "Killed." ≠ m ++ ": " ++ text := by
  intro same
  have chars : ':' ∈ "Killed.".toList := by
    rw [same]
    simp
  revert chars
  decide

theorem blames_iff {strerror : Errno → String} {e r : Errno} {exit : Exit}
    (blames : Blames strerror r exit) : Blames strerror e exit ↔ strerror r = strerror e := by
  obtain ⟨R, rfl, m, member, error⟩ := blames
  constructor
  · rintro ⟨R', same, m', member', error'⟩
    obtain ⟨-, rfl⟩ := Exit.returned.inj same
    exact message_text_inj member member' (Option.some.inj (error.symm.trans error'))
  · intro same
    exact ⟨R, rfl, m, member, by rw [error, same]⟩

end Messages

section Truth

variable {s : Assignment} {a : Args} {fds : Table} {e₀ : Errno} {childFirst : Bool} {log : List Event}

/-- Which call fails first follows from the fates. -/
theorem firstFailure_log (logged : s.Log a (.start fds e₀) childFirst log) :
    firstFailure log = s.firstFailing a childFirst := by
  obtain ⟨later, -, first, rfl⟩ := logged
  obtain ⟨-, setup, parent⟩ := parent_run s a fds e₀
  rw [firstFailure, List.findSome?_append, ← firstFailure, ← firstFailure, setup, first, Assignment.firstFailing]
  by_cases forks : s.Forks
  · rw [parent forks, (child_run forks a fds e₀).2]
  · obtain ⟨e, failed⟩ := Option.ne_none_iff_exists'.mp (Assignment.setup_ne_none forks)
    rw [failed, Option.some_or, Option.some_or]

/-- An error with another text than the first failure's is not truthful. -/
theorem not_truthful {before : Proc} {e r : Errno} (first : firstFailure log = some e)
    (blames : Blames s.strerror r (s.parent a before).1) (differs : s.strerror r ≠ s.strerror e) :
    ¬ s.Truthful a before log :=
  fun truthful => differs ((blames_iff blames).mp (truthful.failure e first))

theorem not_blames_completes {e : Errno} {code : ℕ} {exit : Exit} (blames : Blames s.strerror e exit) :
    ¬ Completes code exit := by
  rintro ⟨R, way, -, none⟩
  obtain ⟨R', rfl, m, -, error⟩ := blames
  rcases way with panicked | ⟨pid, same⟩
  · exact Exit.noConfusion panicked
  · obtain ⟨-, rfl⟩ := Exit.returned.inj same
    exact Option.some_ne_none _ (error.symm.trans none)

theorem not_blames_killed {e : Errno} : ¬ Blames s.strerror e (.returned none { error := some "Killed." }) := by
  rintro ⟨R, same, m, -, error⟩
  obtain ⟨-, rfl⟩ := Exit.returned.inj same
  exact killed_ne_message _ (Option.some.inj error)

end Truth

/-- A call reports truthfully exactly when no call fails, or the failure that the parent notices has the text of
the one that comes first. -/
theorem truthful_iff (s : Assignment) (a : Args) (fds : Table) (e₀ : Errno) {childFirst : Bool} {log : List Event}
    (logged : s.Log a (.start fds e₀) childFirst log) :
    s.Truthful a (.start fds e₀) log ↔
      ∀ e, s.firstFailing a childFirst = some e →
        ∃ r, s.noticed a e₀ = some r ∧ s.strerror r = s.strerror e := by
  have first := firstFailure_log logged
  obtain ⟨tells, -⟩ := parent_run s a fds e₀
  rw [Assignment.Tells] at tells
  cases noticed : s.noticed a e₀ with
  | some r =>
    rw [noticed] at tells
    constructor
    · intro truthful e failing
      exact ⟨r, rfl, (blames_iff tells).mp (truthful.failure e (first.trans failing))⟩
    · intro told
      refine ⟨fun e failing => ?_, fun quiet => ?_⟩
      · obtain ⟨r', same, text⟩ := told e (first.symm.trans failing)
        obtain rfl := Option.some.inj same
        exact (blames_iff tells).mpr text
      · rw [Assignment.noticed_eq_none (first.symm.trans quiet)] at noticed
        exact absurd noticed (Option.some_ne_none r).symm
  | none =>
    rw [noticed] at tells
    dsimp only at tells
    constructor
    · intro truthful e failing
      have blames := truthful.failure e (first.trans failing)
      split_ifs at tells with normal
      · exact absurd tells (not_blames_completes blames)
      · exact absurd (tells ▸ blames) not_blames_killed
    · intro told
      refine ⟨fun e failing => ?_, fun quiet normal => ?_⟩
      · obtain ⟨r, impossible, -⟩ := told e (first.symm.trans failing)
        exact absurd impossible (Option.some_ne_none r).symm
      · have forks : s.Forks := by
          by_contra alone
          have setup := first.symm.trans quiet
          rw [Assignment.firstFailing, Option.or_eq_none_iff] at setup
          exact Assignment.setup_ne_none alone setup.1
        rw [waitStatus_eq forks] at normal ⊢
        rwa [if_pos normal] at tells

/-- Everything succeeds but the child's `chdir`, which fails with `ENOENT`. -/
def Assignment.missingDirectory : Assignment where
  fate site := if site = .chdir then some 2 else none
  pid := 7
  stdinCount := 0
  status := 0
  bytes _ := []
  ending _ := none
  strerror e := if e = 0 then "Success" else "No such file or directory"
  lasting site e failed := by
    split_ifs at failed
    obtain rfl := Option.some.inj failed
    decide
  ends := nofun
  forked := by decide

private def inMissing : Args := { exe := "/bin/true", cwd := some "/missing" }

/-- The parent's calls first, then the child's. -/
private def missingLog : List Event :=
  beforeFork (Assignment.missingDirectory.parent inMissing (.start .standard 0)).2.events ++
    (afterFork (Assignment.missingDirectory.parent inMissing (.start .standard 0)).2.events ++
      afterFork (Assignment.missingDirectory.child inMissing (.start .standard 0)).2.events)

private theorem missingLog_log :
    Assignment.missingDirectory.Log inMissing (.start .standard 0) false missingLog :=
  ⟨_, .append _ _, List.findSome?_append, rfl⟩

theorem truthful_iff_missingDirectory :
    Assignment.missingDirectory.Truthful inMissing (.start .standard 0) missingLog ↔
      ∀ e, Assignment.missingDirectory.firstFailing inMissing false = some e →
        ∃ r, Assignment.missingDirectory.noticed inMissing 0 = some r ∧
          Assignment.missingDirectory.strerror r = Assignment.missingDirectory.strerror e :=
  truthful_iff .missingDirectory inMissing .standard 0 missingLog_log

private theorem missingLog_failure : firstFailure missingLog = some 2 := by
  decide +kernel

private theorem missing_outcome :
    (Assignment.missingDirectory.parent inMissing (.start .standard 0)).1 =
      .returned none { error := some "exec failed: Success" } := by
  decide +kernel

private theorem missing_blames : Blames Assignment.missingDirectory.strerror 0
    (Assignment.missingDirectory.parent inMissing (.start .standard 0)).1 := by
  rw [missing_outcome]
  exact ⟨_, rfl, "exec failed", by decide, rfl⟩

/-- A missing working directory is reported as a failure to exec, with the text of success. -/
theorem missingDirectory_misreported : ¬ ∀ (s : Assignment) (a : Args) (fds : Table) (e₀ : Errno)
    (childFirst : Bool) (log : List Event), s.Log a (.start fds e₀) childFirst log →
      s.Truthful a (.start fds e₀) log := by
  intro truthful
  obtain ⟨childFirst, logged⟩ := Assignment.exists_log .missingDirectory inMissing (.start .standard 0) (.append _ _)
  exact not_truthful missingLog_failure missing_blames (by decide)
    (truthful .missingDirectory inMissing .standard 0 childFirst missingLog logged)

end OmniaJit.Exec
