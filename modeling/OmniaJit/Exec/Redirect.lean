import OmniaJit.Exec.Setup

/-! # What `redirect` does to the descriptor table

The two stream branches pass their descriptors to `dup2` the other way round: the stream that
should be left alone becomes a copy of the one that should be redirected. The file branch takes the
number of the opened file for a failure if it is 0, and closes that number at the end even if it is
the destination itself. Everything else in the table stays as it is.
-/

namespace OmniaJit.Exec

open OmniaJit.Machine OmniaJit.Posix OmniaJit.FfiExt

def Stream.other : Stream → Stream
  | .stdout => .stderr
  | .stderr => .stdout

theorem Stream.other_fd_ne (stream : Stream) : stream.other.fd ≠ stream.fd := by
  cases stream <;> decide

theorem Stream.eq_other_of_ne {source dest : Stream} (different : source ≠ dest) :
    source = dest.other := by
  cases source <;> cases dest <;> first | rfl | exact absurd rfl different

/-- An entry as `dup2` copies it. -/
def Descriptor.copy (entry : Descriptor) : Descriptor := { file := entry.file }

/-- A value that converts to `const char *`. -/
def Target.isPath : Target → Bool
  | .number _ | .value => false
  | .io _ | .filename _ | .handle _ => true

/-- What the file branch leaves once the file is open. -/
def Table.redirectFile (fds : Table) (target : Target) (dest : Stream) (failure : Option Errno) :
    Bool × Table :=
  let opened : Table := fds.set fds.lowestFree { file := .opened target dest.fd }
  match failure with
  | some _ => (false, opened.close fds.lowestFree)
  | none => (true, (opened.dup2 fds.lowestFree dest.fd).close fds.lowestFree)

/-- The result and the table of a `redirect` that returns. -/
def Table.redirect (env : Environment) (target : Target) (dest : Stream) (fds : Table) :
    Option (Bool × Table) :=
  if target.names dest.other then
    (settle (env.attempts (.dup2 dest.fd))).map fun failure =>
      if failure = none then (true, fds.dup2 dest.fd dest.other.fd) else (false, fds)
  else if target.isPath then
    match settle (env.attempts (.open dest.fd)) with
    | none => none
    | some (some _) => some (false, fds)
    | some none =>
        if fds.lowestFree = 0 then
          some (false, fds.set fds.lowestFree { file := .opened target dest.fd })
        else (settle (env.attempts (.dup2 dest.fd))).map (fds.redirectFile target dest)
  else none

section Run

variable {env : Environment}

/-- `dup2` in `redirect`, on the table. -/
private theorem ensures_dup2 (oldfd newfd : Fd) (attempts : List (Option Errno)) {p : Proc}
    {post : Except Errno Unit → Proc → Prop} {exit : Exit → Proc → Prop}
    (succeeded : ∀ q, settle attempts = some none → q.fds = p.fds.dup2 oldfd newfd → post (.ok ()) q)
    (failed : ∀ q e, settle attempts = some (some e) → q.fds = p.fds → post (.error e) q)
    (blocked : ∀ q, settle attempts = none → exit .blocked q) :
    Program.Ensures (retry (C.dup2 oldfd newfd) attempts) p post exit := by
  apply ensures_retry (fun q => q.fds = p.fds) attempts rfl
  · exact fun q e _ _ same => same
  · exact fun q settled same => succeeded _ settled (by rw [← same]; rfl)
  · exact fun q e settled same => failed _ e settled same
  · exact fun q settled _ => blocked q settled

/-- `ffiext.open`, on the table. -/
private theorem ensures_open (target : Target) (dest : Fd) {p : Proc}
    {post : Except Errno Fd → Proc → Prop} {exit : Exit → Proc → Prop}
    (succeeded : ∀ q, settle (env.attempts (.open dest)) = some none → p.fds.lowestFree ≠ 0 →
      q.fds = p.fds.set p.fds.lowestFree { file := .opened target dest } →
      post (.ok p.fds.lowestFree) q)
    (zero : ∀ q e, settle (env.attempts (.open dest)) = some none → p.fds.lowestFree = 0 →
      q.fds = p.fds.set p.fds.lowestFree { file := .opened target dest } → post (.error e) q)
    (failed : ∀ q e, settle (env.attempts (.open dest)) = some (some e) → q.fds = p.fds →
      post (.error e) q)
    (blocked : ∀ q, settle (env.attempts (.open dest)) = none → exit .blocked q) :
    Program.Ensures (FfiExt.open env target dest) p post exit := by
  simp only [FfiExt.open, Program.ensures_bind, C.open]
  apply ensures_retry (fun q => q.fds = p.fds) (env.attempts (.open dest)) rfl
  · exact fun q e _ _ same => same
  · intro q settled same
    simp only [Program.ensures_ite, Program.ensures_bind, Program.ensures_pure, errno,
      Program.ensures_get, same]
    constructor
    · intro positive
      exact succeeded _ settled (Nat.ne_of_gt positive) rfl
    · intro refused
      exact zero _ _ settled (Nat.eq_zero_of_not_pos refused) rfl
  · exact fun q e settled same => failed _ e settled same
  · exact fun q settled _ => blocked q settled

/-- What `redirect` does with the name of the other stream. -/
def redirectCopy (env : Environment) (dest : Stream) : M (Except String Unit) := do
  match ← retry (C.dup2 dest.fd dest.other.fd) (env.attempts (.dup2 dest.fd)) with
  | .error e => pure (.error (strerror env e "dup2(2) failed"))
  | .ok _ => pure (.ok ())

/-- What it does with a path. -/
def redirectOpen (env : Environment) (target : Target) (dest : Stream) : M (Except String Unit) := do
  match ← FfiExt.open env target dest.fd with
  | .error e => pure (.error (strerror env e "open(2) failed"))
  | .ok fd =>
    match ← retry (C.dup2 fd dest.fd) (env.attempts (.dup2 dest.fd)) with
    | .error e => do
      C.close fd
      pure (.error (strerror env e "dup2(2) failed"))
    | .ok _ => do
      C.close fd
      pure (.ok ())

theorem redirect_eq (env : Environment) (target : Target) (dest : Stream) :
    redirect env target dest.fd =
      if target.names dest.other then redirectCopy env dest
      else if target.isPath then redirectOpen env target dest
      else throw .raised := by
  unfold redirect
  cases dest with
  | stdout =>
    rw [if_neg (fun both => both.2 rfl)]
    refine ite_congr (propext (and_iff_left (by decide))) (fun _ => rfl) (fun _ => ?_)
    cases target <;> rfl
  | stderr =>
    refine ite_congr (propext (and_iff_left (by decide))) (fun _ => rfl) (fun _ => ?_)
    rw [if_neg (fun both => both.2 rfl)]
    cases target <;> rfl

/-- A copy of the other stream, on the table. -/
private theorem ensures_redirectCopy {target : Target} {dest : Stream} (named : target.names dest.other)
    (p : Proc) : Program.Ensures (redirectCopy env dest) p
      (fun result after => p.fds.redirect env target dest = some (result.isOk, after.fds))
      (fun exit _ => p.fds.redirect env target dest = none ∧ (exit = .raised ∨ exit = .blocked)) := by
  rw [redirectCopy, Table.redirect, if_pos named, Program.ensures_bind]
  apply ensures_dup2
  · intro q settled same
    simp only [Program.ensures_pure, settled, Option.map_some, if_true, same]
    rfl
  · intro q e settled same
    simp only [Program.ensures_pure, settled, Option.map_some, same]
    rfl
  · intro q settled
    rw [settled, Option.map_none]
    exact ⟨rfl, .inr rfl⟩

/-- A file, on the table. -/
private theorem ensures_redirectOpen {target : Target} {dest : Stream} (path : target.isPath)
    (unnamed : ¬ target.names dest.other) (p : Proc) : Program.Ensures (redirectOpen env target dest) p
      (fun result after => p.fds.redirect env target dest = some (result.isOk, after.fds))
      (fun exit _ => p.fds.redirect env target dest = none ∧ (exit = .raised ∨ exit = .blocked)) := by
  rw [redirectOpen, Table.redirect, if_neg unnamed, if_pos path, Program.ensures_bind]
  apply ensures_open
  · intro q settled positive same
    simp only [settled, if_neg positive, Program.ensures_bind]
    apply ensures_dup2
    · intro r settled' same'
      simp only [Program.ensures_bind, ensures_close, Program.ensures_pure, settled',
        Option.map_some, Proc.close_fds, same', same]
      rfl
    · intro r e settled' same'
      simp only [Program.ensures_bind, ensures_close, Program.ensures_pure, settled',
        Option.map_some, Proc.close_fds, same', same]
      rfl
    · intro r settled'
      rw [settled', Option.map_none]
      exact ⟨rfl, .inr rfl⟩
  · intro q e settled zero same
    simp only [settled, if_pos zero, Program.ensures_pure, same]
    rfl
  · intro q e settled same
    simp only [settled, Program.ensures_pure, same]
    rfl
  · intro q settled
    rw [settled]
    exact ⟨rfl, .inr rfl⟩

/-- A run of `redirect`, on the table. -/
theorem ensures_redirect (target : Target) (dest : Stream) (p : Proc) :
    Program.Ensures (redirect env target dest.fd) p
      (fun result after => p.fds.redirect env target dest = some (result.isOk, after.fds))
      (fun exit _ => p.fds.redirect env target dest = none ∧ (exit = .raised ∨ exit = .blocked)) := by
  rw [redirect_eq]
  split_ifs with named path
  · exact ensures_redirectCopy named p
  · exact ensures_redirectOpen path named p
  · refine ⟨?_, .inl rfl⟩
    rw [Table.redirect, if_neg named, if_neg path]

end Run

section Promise

/-- `dest` refers to `file` afterwards, and nothing else has changed. -/
def Changed (dest : Fd) (file : Option File) (before after : Table) : Prop :=
  (after.get dest).map Descriptor.file = file ∧ ∀ fd, fd ≠ dest → after.get fd = before.get fd

/-- What a call that returns true, or nil, should have done. -/
def Redirected (target : Target) (dest : Stream) (before : Table) : Bool → Table → Prop
  | true, after =>
      (∀ source, target.names source → source ≠ dest →
        Changed dest.fd ((before.get source.fd).map Descriptor.file) before after) ∧
      (∀ name, target = .filename name → Changed dest.fd (some (.opened target dest.fd)) before after)
  | false, after => after = before

/-- The tables at which it does. A stream is only ever redirected to the other one if both are the
same already, or if the kernel refuses. A file needs descriptor 0 to be open, and some number other
than the destination to be the next free one. -/
def Redirectable (env : Environment) (target : Target) (dest : Stream) (fds : Table) : Prop :=
  if target.names dest.other then
    settle (env.attempts (.dup2 dest.fd)) = some none →
      fds.get dest.other.fd = (fds.get dest.fd).map Descriptor.copy
  else target.isPath → settle (env.attempts (.open dest.fd)) = some none →
    fds.get STDIN ≠ none ∧ ((∃ name, target = .filename name) →
      settle (env.attempts (.dup2 dest.fd)) = some none → fds.lowestFree ≠ dest.fd)

variable {env : Environment} {target : Target} {dest : Stream} {fds : Table}

theorem Table.dup2_of_closed {oldfd newfd : Fd} (closed : fds.get oldfd = none) :
    fds.dup2 oldfd newfd = fds := by
  simp only [Table.dup2, closed]

/-- A copy that is there already changes nothing. -/
theorem Table.dup2_of_copied {oldfd newfd : Fd}
    (copied : fds.get newfd = (fds.get oldfd).map Descriptor.copy) : fds.dup2 oldfd newfd = fds := by
  cases found : fds.get oldfd with
  | none => exact Table.dup2_of_closed found
  | some entry =>
    rw [found, Option.map_some] at copied
    simp only [Table.dup2, found]
    split_ifs
    · rfl
    · ext1
      exact (Function.update_eq_self_iff ..).mpr copied.symm

theorem lowestFree_eq_zero_iff : fds.lowestFree = 0 ↔ fds.get STDIN = none := by
  constructor
  · intro zero
    have free := fds.get_lowestFree
    rwa [zero] at free
  · intro free
    exact Nat.le_zero.mp (DescriptorTable.lowestFree_le free)

/-- The stream branches. -/
theorem redirected_stream_iff (named : target.names dest.other) :
    Redirected target dest fds true (fds.dup2 dest.fd dest.other.fd) ↔
      fds.get dest.other.fd = (fds.get dest.fd).map Descriptor.copy := by
  constructor
  · rintro ⟨streams, -⟩
    have different : dest.other ≠ dest := by cases dest <;> decide
    obtain ⟨refers, frame⟩ := streams dest.other named different
    cases found : fds.get dest.fd with
    | none =>
      rw [Table.dup2_of_closed found, found] at refers
      exact Option.map_eq_none_iff.mp refers.symm
    | some entry =>
      rw [← frame _ dest.other_fd_ne]
      exact Table.dup2_self dest.other_fd_ne.symm found
  · intro same
    rw [Table.dup2_of_copied same]
    constructor
    · intro source _ different
      obtain rfl := Stream.eq_other_of_ne different
      exact ⟨by rw [same, Option.map_map]; rfl, fun _ _ => rfl⟩
    · rintro name rfl
      simp [Target.names] at named

/-- The file branch, once the file is open. -/
theorem redirected_file_iff (unnamed : ¬ target.names dest.other) (failure : Option Errno) :
    Redirected target dest fds (fds.redirectFile target dest failure).1
        (fds.redirectFile target dest failure).2 ↔
      ((∃ name, target = .filename name) → failure = none → fds.lowestFree ≠ dest.fd) := by
  cases failure with
  | some e =>
    constructor
    · exact fun _ _ => nofun
    · exact fun _ => fds.close_set_lowestFree _
  | none =>
    have streams (after : Table) : ∀ source, target.names source → source ≠ dest →
        Changed dest.fd ((fds.get source.fd).map Descriptor.file) fds after := by
      intro source named different
      obtain rfl := Stream.eq_other_of_ne different
      exact absurd named unnamed
    constructor
    · rintro ⟨-, files⟩ ⟨name, rfl⟩ - taken
      obtain ⟨refers, -⟩ := files name rfl
      simp only [Table.redirectFile, taken, DescriptorTable.get_close_self, Option.map_none] at refers
      contradiction
    · intro apart
      refine ⟨streams _, ?_⟩
      rintro name rfl
      have different : dest.fd ≠ fds.lowestFree := (apart ⟨name, rfl⟩ rfl).symm
      constructor
      · simp only [Table.redirectFile]
        rw [DescriptorTable.get_close_of_ne _ different,
          Table.dup2_self different.symm (DescriptorTable.get_set_self ..)]
        rfl
      · intro fd other
        simp only [Table.redirectFile]
        apply dite (fd = fds.lowestFree)
        · rintro rfl
          rw [DescriptorTable.get_close_self, DescriptorTable.get_lowestFree]
        · intro unopened
          rw [DescriptorTable.get_close_of_ne _ unopened, Table.dup2_of_ne other,
            DescriptorTable.get_set_of_ne _ unopened]

/-- The file branch. -/
theorem redirected_open_iff (unnamed : ¬ target.names dest.other) (attempts : List (Option Errno)) :
    (∀ returned ∈ (if fds.lowestFree = 0 then
          some (false, fds.set fds.lowestFree { file := .opened target dest.fd })
        else (settle attempts).map (fds.redirectFile target dest)),
      Redirected target dest fds returned.1 returned.2) ↔
    fds.get STDIN ≠ none ∧ ((∃ name, target = .filename name) → settle attempts = some none →
      fds.lowestFree ≠ dest.fd) := by
  split_ifs with zero
  · have free := lowestFree_eq_zero_iff.mp zero
    constructor
    · intro kept
      have same : fds.set fds.lowestFree { file := .opened target dest.fd } = fds := kept _ rfl
      have opened := DescriptorTable.get_set_self fds fds.lowestFree { file := .opened target dest.fd }
      rw [same, DescriptorTable.get_lowestFree] at opened
      contradiction
    · exact fun condition => absurd free condition.1
  · have held : fds.get STDIN ≠ none := fun free => zero (lowestFree_eq_zero_iff.mpr free)
    rw [and_iff_right held]
    cases settle attempts with
    | none => simp
    | some failure =>
      have file := @redirected_file_iff _ _ fds unnamed failure
      simpa using file

end Promise

/-- A call of `redirect` does what it should exactly at these tables. -/
theorem redirect_redirects_iff (env : Environment) (target : Target) (dest : Stream) (p : Proc) :
    Program.Ensures (redirect env target dest.fd) p
        (fun result after => Redirected target dest p.fds result.isOk after.fds) (fun _ _ => True) ↔
      Redirectable env target dest p.fds := by
  have ran := @ensures_redirect env target dest p
  have known : Program.Ensures (redirect env target dest.fd) p
        (fun result after => Redirected target dest p.fds result.isOk after.fds) (fun _ _ => True) ↔
      ∀ returned ∈ p.fds.redirect env target dest, Redirected target dest p.fds returned.1 returned.2 := by
    simp only [Program.Ensures] at ran ⊢
    cases finished : redirect env target dest.fd p with
    | ok result after =>
      simp only [finished] at ran
      simp [ran]
    | error exit after =>
      simp only [finished] at ran
      simp [ran]
  rw [known, Table.redirect, Redirectable]
  apply dite (target.names dest.other = true)
  · intro named
    rw [if_pos named, if_pos named]
    cases settle (env.attempts (.dup2 dest.fd)) with
    | none => simp
    | some failure =>
      cases failure with
      | none => simpa using redirected_stream_iff named
      | some e => simp [Redirected]
  · intro unnamed
    rw [if_neg unnamed, if_neg unnamed]
    cases target.isPath with
    | false => simp
    | true =>
      cases settle (env.attempts (.open dest.fd)) with
      | none => simp
      | some failure =>
        cases failure with
        | some e => simp [Redirected]
        | none => simpa using redirected_open_iff unnamed _

/-- Sending stderr to `io.stdout` makes a copy of stderr out of stdout. -/
theorem redirect_copies_backwards :
    ¬ ∀ (env : Environment) (target : Target) (dest : Stream) (p : Proc),
      Program.Ensures (redirect env target dest.fd) p
        (fun result after => Redirected target dest p.fds result.isOk after.fds) (fun _ _ => True) := by
  intro redirects
  have call : Redirected (.io .stdout) .stderr .standard true (Table.standard.dup2 STDERR STDOUT) :=
    redirects .quiet (.io .stdout) .stderr (.start .standard 0)
  obtain ⟨refers, -⟩ := call.1 .stdout rfl (by decide)
  rw [Table.dup2_of_ne (by decide)] at refers
  exact absurd refers (by decide)

end OmniaJit.Exec
