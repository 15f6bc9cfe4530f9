import OmniaJit.Exec.Frames
import OmniaJit.Exec.PipeSystem

/-! # The order of the parent's calls

The parent of the pipe system goes through its phases in a fixed order. The phases are those of
the source: in every run of `spawn`, whatever its calls return, no call that belongs to one phase
is made after a call of a later one. In particular nothing is read from either output before
`waitpid` has returned.
-/

namespace OmniaJit.Exec

open OmniaJit.Machine OmniaJit.FfiExt

/-- The phase in which the parent uses a descriptor. -/
def Pipes.phase? (p : Pipes) (fd : Fd) : Option Phase :=
  if fd = p.stdin.2 then some .writing
  else if fd = p.errno.1 then some .readingErrno
  else if fd = p.stdout.1 then some (.draining .stdout)
  else if fd = p.stderr.1 then some (.draining .stderr)
  else none

/-- The phase a call belongs to. -/
def Event.phase? (p : Pipes) : Event → Option Phase
  | .write fd _ _ | .read fd _ | .getfl fd _ | .setfl fd _ | .close fd _ => p.phase? fd
  | .waitpid _ _ => some .waiting
  | _ => none

/-- The ranks of the phases of all calls, oldest first. -/
def ranks (p : Pipes) (events : List Event) : List ℕ :=
  (events.filterMap (Event.phase? p)).map Phase.rank

/-- The calls so far are in order, and none is of a phase past `bound`. -/
def Ordered (p : Pipes) (bound : ℕ) (q : Proc) : Prop :=
  (ranks p q.events).Pairwise (· ≤ ·) ∧ ∀ rank ∈ ranks p q.events, rank ≤ bound

/-- `phase`, if there is one, has this rank. -/
def HasRank (bound : ℕ) (phase : Option Phase) : Prop := ∀ found, phase = some found → found.rank = bound

theorem hasRank_none {bound : ℕ} : HasRank bound none := by
  rintro _ ⟨⟩

/-- The phase of an end. The parent uses four of the eight and only closes the others. -/
def endPhase : PipeName → Side → Option Phase
  | .stdin, .write => some .writing
  | .errno, .read => some .readingErrno
  | .stdout, .read => some (.draining .stdout)
  | .stderr, .read => some (.draining .stderr)
  | _, _ => none

section Order

variable {p : Pipes} {bound : ℕ} {q : Proc}

theorem Ordered.mono (ordered : Ordered p bound q) {later : ℕ} (le : bound ≤ later) :
    Ordered p later q :=
  ⟨ordered.1, fun rank member => (ordered.2 rank member).trans le⟩

theorem ranks_append (events : List Event) (event : Event) :
    ranks p (events ++ [event]) =
      ranks p events ++ (event.phase? p).toList.map Phase.rank := by
  cases phase : event.phase? p <;> simp [ranks, phase]

/-- A call of the current phase, or of none, keeps the order. -/
theorem Ordered.record (ordered : Ordered p bound q) {event : Event}
    (current : HasRank bound (event.phase? p)) : Ordered p bound (q.record event) := by
  have added : ∀ rank ∈ (event.phase? p).toList.map Phase.rank, rank = bound := by
    simp only [List.mem_map, Option.mem_toList]
    rintro rank ⟨phase, found, rfl⟩
    exact current phase found
  have one : ((event.phase? p).toList.map Phase.rank).Pairwise (· ≤ ·) := by
    cases event.phase? p <;> simp
  simp only [Ordered, Proc.record_events, ranks_append, List.pairwise_append, List.mem_append]
  refine ⟨⟨ordered.1, one, ?_⟩, ?_⟩
  · intro before member rank new
    rw [added rank new]
    exact ordered.2 before member
  · rintro rank (member | new)
    · exact ordered.2 rank member
    · exact (added rank new).le

theorem Ordered.keepsCalls {fd : Fd} (current : HasRank bound (p.phase? fd)) :
    KeepsCalls (Ordered p bound) fd := by
  intro q event call ordered
  apply ordered.record
  cases event <;> first | contradiction | (obtain rfl := call; exact current)

theorem Ordered.keepsClose {fd : Fd} (current : HasRank bound (p.phase? fd)) :
    KeepsClose (Ordered p bound) fd := fun q ordered =>
  Ordered.record (q := { q with fds := q.fds.close fd }) ordered current

theorem Ordered.keepsSetup : KeepsSetup (Ordered p bound) := by
  intro q fds event setup ordered
  apply Ordered.record (q := { q with fds := fds }) ordered
  cases event <;> first | contradiction | exact hasRank_none

theorem Pipes.phase?_fd (distinct : p.all.Nodup) (name : PipeName) (side : Side) :
    p.phase? (p.fd name side) = endPhase name side := by
  simp only [Pipes.all, List.nodup_cons, List.mem_cons, not_or] at distinct
  cases name <;> cases side <;> simp only [Pipes.phase?, Pipes.fd, Pipes.get, endPhase] <;> grind

variable (env : Environment)

/-- The parent's branch makes its calls in order. -/
theorem parent_ordered (a : Args) (pid : ℕ) (distinct : p.all.Nodup) (ordered : Ordered p 0 q) :
    Program.Ensures (parent env a p pid) q (fun _ after => (ranks p after.events).Pairwise (· ≤ ·))
      (fun _ after => (ranks p after.events).Pairwise (· ≤ ·)) := by
  have current (name : PipeName) (side : Side) {bound : ℕ} (rank : HasRank bound (endPhase name side)) :
      HasRank bound (p.phase? (p.fd name side)) := by
    rwa [Pipes.phase?_fd distinct]
  have close (name : PipeName) (side : Side) {bound : ℕ} (rank : HasRank bound (endPhase name side)) :
      KeepsClose (Ordered p bound) (p.fd name side) := Ordered.keepsClose (current name side rank)
  have calls (name : PipeName) (side : Side) {bound : ℕ} (rank : HasRank bound (endPhase name side)) :
      KeepsCalls (Ordered p bound) (p.fd name side) := Ordered.keepsCalls (current name side rank)
  have ranked (phase : Phase) : HasRank phase.rank (some phase) := by
    rintro _ ⟨⟩
    rfl
  have stdin : KeepsClose (Ordered p 0) p.stdin.1 := close .stdin .read hasRank_none
  have stdout : KeepsClose (Ordered p 0) p.stdout.2 := close .stdout .write hasRank_none
  have stderr : KeepsClose (Ordered p 0) p.stderr.2 := close .stderr .write hasRank_none
  simp only [parent, Program.ensures_bind, ensures_close]
  refine (sendStdin_keeps env p a.stdin (calls .stdin .write (ranked .writing))
    (close .stdin .write (ranked .writing)) _ (stderr _ (stdout _ (stdin q ordered)))).mono
    (fun _ r ordered => ?_) (fun _ _ ordered => ordered.1)
  refine (readErrno_keeps env p (calls .errno .read (ranked .readingErrno)) (close .errno .write hasRank_none)
    (close .errno .read (ranked .readingErrno)) r (ordered.mono (by decide))).mono
    (fun _ r ordered => ?_) (fun _ _ ordered => ordered.1)
  refine (reap_keeps env pid (fun q result ordered => ordered.record (ranked .waiting)) r
    (ordered.mono (by decide))).mono (fun ret r ordered => ?_) (fun _ _ ordered => ordered.1)
  refine (collect_keeps env p.stdout.1 .stdout _ (calls .stdout .read (ranked (.draining .stdout)))
    (close .stdout .read (ranked (.draining .stdout))) r (ordered.mono (by decide))).mono
    (fun out r ordered => ?_) (fun _ _ ordered => ordered.1)
  refine (collect_keeps env p.stderr.1 .stderr _ (calls .stderr .read (ranked (.draining .stderr)))
    (close .stderr .read (ranked (.draining .stderr))) r (ordered.mono (by decide))).mono
    (fun err r ordered => ?_) (fun _ _ ordered => ordered.1)
  exact (finish_keeps a pid ret _ r ordered).mono (fun _ _ ordered => ordered.1)
    (fun _ _ ordered => ordered.1)

/-- In every run of the parent, whatever its calls return, the calls come in the order of the
phases. -/
theorem run_ordered (a : Args) (fds : Table) (e₀ : Errno) (parent : 0 < env.pid) :
    (ranks fds.pipes.1 (run env a (.start fds e₀)).2.events).Pairwise (· ≤ ·) := by
  apply run_of_ensures a (fun _ after => (ranks fds.pipes.1 after.events).Pairwise (· ≤ ·))
  apply ensures_spawn_parent env a parent (Ordered.keepsSetup : KeepsSetup (Ordered fds.pipes.1 0))
  · exact ⟨.nil, by rintro _ ⟨⟩⟩
  · exact fun _ _ _ ordered => ordered.1
  · exact fun q _ ordered => parent_ordered env a _ fds.pipes_opened.nodup ordered

end Order

end OmniaJit.Exec
