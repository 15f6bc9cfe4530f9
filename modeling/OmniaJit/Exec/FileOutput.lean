import OmniaJit.Exec.Redirect
import OmniaJit.Exec.Wiring
import OmniaJit.Posix.FileContent

/-! # Output redirected to files

`ffiext.open` opens a file for writing and creates it if need be, but neither empties it nor appends
to it, and each redirected stream opens its file again. What a file holds in the end is therefore
the output only if the output covers the old content and the two streams do not share the file.
-/

namespace OmniaJit.Exec

open OmniaJit.Machine OmniaJit.Posix OmniaJit.FfiExt

/-- The same call with a file name, or nothing, for either output. -/
def Args.withFiles (a : Args) (files : Stream → Option String) : Args :=
  { a with stdout := (files .stdout).map .filename, stderr := (files .stderr).map .filename }

/-- `connect` on the table, when it succeeds. -/
def Table.connect (fds : Table) (target : Option String) (writer : Fd) (dest : Stream) : Table :=
  match target with
  | some name => (fds.redirectFile (.filename name) dest none).2
  | none => fds.dup2 writer dest.fd

/-- The child's table from `fork` to `execv`. -/
def Table.childFiles (fds : Table) (p : Pipes) (stdin : Option Bytes) (files : Stream → Option String) :
    Table :=
  let fds := if stdin.isSome then fds.dup2 p.stdin.1 STDIN else fds
  ((fds.connect (files .stdout) p.stdout.2 .stdout).connect (files .stderr) p.stderr.2 .stderr).childCloses p

section Run

variable {env : Environment} {α β : Type}

/-- The program continues with this table, and does not start the new image. -/
def Leaves (f : Table → Table) (program : M α) : Prop :=
  ∀ q, Program.Ensures program q (fun _ after => after.fds = f q.fds) (fun exit _ => exit ≠ .replaced)

theorem Leaves.bind {f g : Table → Table} {first : M α} {rest : α → M β} (head : Leaves f first)
    (tail : ∀ value, Leaves g (rest value)) : Leaves (g ∘ f) (first >>= rest) := by
  intro q
  rw [Program.ensures_bind]
  refine (head q).mono (fun value r reached => ?_) (fun _ _ way => way)
  rw [Function.comp_apply, ← reached]
  exact tail value r

theorem leaves_pure (value : α) : Leaves id (pure value : M α) := fun _ => rfl

/-- A call and what depends on its result. -/
theorem leaves_retry {f : Table → Table} {event : Except Errno α → Event} {effect : Table → α × Table}
    (attempts : List (Option Errno)) {rest : Except Errno α → M β}
    (succeeded : ∀ value, Leaves id (rest (.ok value)))
    (failed : ∀ e q, Program.Ensures (rest (.error e)) q (fun _ after => after.fds = f q.fds)
      (fun exit _ => exit ≠ .replaced))
    (same : ∀ fds, (effect fds).2 = f fds) :
    Leaves f (retry (syscall event effect) attempts >>= rest) := by
  intro p
  rw [Program.ensures_bind]
  apply ensures_retry (fun q => q.fds = p.fds) attempts rfl
  · exact fun q e _ _ kept => kept
  · intro q _ kept
    refine (succeeded _ _).mono (fun _ r reached => ?_) (fun _ _ way => way)
    rw [reached, ← same, ← kept]
    rfl
  · intro q e _ kept
    refine (failed e _).mono (fun _ r reached => ?_) (fun _ _ way => way)
    rw [reached, Proc.record_fds, kept]
  · exact fun q _ _ => Exit.noConfusion

theorem leaves_once {f : Table → Table} {event : Except Errno α → Event} {effect : Table → α × Table}
    (attempts : List (Option Errno)) {rest : Except Errno α → M β}
    (succeeded : ∀ value, Leaves id (rest (.ok value)))
    (failed : ∀ e q, Program.Ensures (rest (.error e)) q (fun _ after => after.fds = f q.fds)
      (fun exit _ => exit ≠ .replaced))
    (same : ∀ fds, (effect fds).2 = f fds) :
    Leaves f (once (syscall event effect) attempts >>= rest) := by
  intro p
  rw [Program.ensures_bind]
  apply ensures_once
  · intro _
    refine (succeeded _ _).mono (fun _ r reached => ?_) (fun _ _ way => way)
    rw [reached, ← same]
    rfl
  · intro e _
    exact failed e _
  · exact fun _ => Exit.noConfusion

/-- A child that reports its failure goes no further. -/
theorem ensures_childFailed (p : Pipes) (q : Proc) {post : α → Proc → Prop} :
    Program.Ensures (childFailed env p : M α) q post (fun exit _ => exit ≠ .replaced) := by
  simp only [childFailed, Program.ensures_bind, errno, Program.ensures_get, Program.ensures_pure, C.write]
  apply ensures_retry (fun _ => True) _ trivial
  · exact fun _ _ _ _ _ => trivial
  · exact fun _ _ _ => Exit.noConfusion
  · exact fun _ _ _ _ => Exit.noConfusion
  · exact fun _ _ _ => Exit.noConfusion

theorem leaves_connectStdin (p : Pipes) (stdin : Option Bytes) :
    Leaves (fun fds => if stdin.isSome then fds.dup2 p.stdin.1 STDIN else fds)
      (connectStdin env p stdin) := by
  cases stdin with
  | none => exact leaves_pure ()
  | some s => exact leaves_retry _ (fun _ => leaves_pure ()) (fun _ q => ensures_childFailed p q) (fun _ => rfl)

/-- A file redirection that returns true leaves the table of its last branch. -/
theorem table_of_redirected {fds after : Table} {name : String} {dest : Stream}
    (unnamed : ¬ (Target.filename name).names dest.other)
    (returned : fds.redirect env (.filename name) dest = some (true, after)) :
    after = (fds.redirectFile (.filename name) dest none).2 := by
  have path : (Target.filename name).isPath = true := rfl
  rw [Table.redirect, if_neg unnamed, if_pos path] at returned
  split at returned
  · contradiction
  · simp at returned
  · split_ifs at returned
    · simp at returned
    · obtain ⟨failure, settled, same⟩ := Option.map_eq_some_iff.mp returned
      cases failure with
      | none => rw [same]
      | some e => simp [Table.redirectFile] at same

theorem leaves_connect (p : Pipes) (target : Option String) (writer : Fd) (dest : Stream) :
    Leaves (fun fds => fds.connect target writer dest)
      (connect env p (target.map .filename) writer dest.fd) := by
  cases target with
  | none => exact leaves_retry _ (fun _ => leaves_pure ()) (fun _ q => ensures_childFailed p q) (fun _ => rfl)
  | some name =>
    intro q
    have unnamed : ¬ (Target.filename name).names dest.other := by simp [Target.names]
    simp only [connect, Option.map_some, Program.ensures_bind]
    refine (ensures_redirect _ dest q).mono (fun result after returned => ?_) (fun exit _ ended => ?_)
    · cases result with
      | error e => exact ensures_childFailed p after
      | ok value => exact table_of_redirected unnamed returned
    · rintro rfl
      rcases ended.2 with other | other <;> exact Exit.noConfusion other

theorem leaves_setenvs (p : Pipes) (index : ℕ) (pairs : List (String × String)) :
    Leaves id (setenvs env p index pairs) := by
  induction pairs generalizing index with
  | nil => exact leaves_pure ()
  | cons pair pairs ih =>
    exact leaves_once _ (fun _ => ih (index + 1)) (fun _ q => ensures_childFailed p q) (fun _ => rfl)

theorem leaves_changeDirectory (p : Pipes) (cwd : Option String) :
    Leaves id (changeDirectory env p cwd) := by
  cases cwd with
  | none => exact leaves_pure ()
  | some path =>
    exact leaves_once _ (fun _ => leaves_pure ()) (fun _ q => ensures_childFailed p q) (fun _ => rfl)

theorem leaves_childCloses (p : Pipes) : Leaves (fun fds => fds.childCloses p) (childCloses p) :=
  fun _ => rfl

/-- Nothing is asked of a child that has not been replaced. -/
theorem not_replaced {exit : Exit} {asked : Prop} (other : exit ≠ .replaced) : exit = .replaced → asked :=
  fun same => absurd same other

/-- The child's branch starts the new image with the computed table. -/
theorem ensures_child_files (a : Args) (p : Pipes) (files : Stream → Option String) (q : Proc)
    {post : Option ℕ × Result → Proc → Prop} :
    Program.Ensures (child env (a.withFiles files) p) q post
      (fun exit after => exit = .replaced → after.fds = q.fds.childFiles p a.stdin files) := by
  simp only [child, Args.withFiles, Program.ensures_bind]
  refine (leaves_connectStdin p a.stdin q).mono (fun _ q₁ stdin => ?_) (fun _ _ => not_replaced)
  refine (leaves_connect p (files .stdout) _ .stdout q₁).mono (fun _ q₂ stdout => ?_) (fun _ _ => not_replaced)
  refine (leaves_connect p (files .stderr) _ .stderr q₂).mono (fun _ q₃ stderr => ?_) (fun _ _ => not_replaced)
  refine (leaves_setenvs p 0 a.env q₃).mono (fun _ q₄ env => ?_) (fun _ _ => not_replaced)
  refine (leaves_changeDirectory p a.cwd q₄).mono (fun _ q₅ cwd => ?_) (fun _ _ => not_replaced)
  refine (leaves_childCloses p q₅).mono (fun _ q₆ closes => ?_) (fun _ _ => not_replaced)
  apply ensures_retry (fun r => r.fds = q₆.fds) _ rfl
  · exact fun _ _ _ _ kept => kept
  · intro r _ kept _
    have table : r.fds = q.fds.childFiles p a.stdin files := by
      simp only [kept, closes, cwd, env, stderr, stdout, stdin, id]
      rfl
    exact table
  · intro r e _ _
    exact (ensures_childFailed p _).mono (fun _ _ way => way) (fun _ _ => not_replaced)
  · exact fun _ _ _ => not_replaced Exit.noConfusion

theorem ensures_openPipe_table (name : PipeName) (s : String) (q : Proc) :
    Program.Ensures (openPipe env name s) q
      (fun pair after => pair = (q.fds.pipe name).1 ∧ after.fds = (q.fds.pipe name).2)
      (fun exit _ => exit ≠ .replaced) := by
  apply ensures_openPipe
  · exact fun _ => ⟨rfl, rfl⟩
  · exact fun _ _ => Exit.noConfusion
  · exact fun _ => Exit.noConfusion

theorem ensures_openPipes_table (q : Proc) :
    Program.Ensures (openPipes env) q
      (fun p after => p = q.fds.pipes.1 ∧ after.fds = q.fds.pipes.2)
      (fun exit _ => exit ≠ .replaced) := by
  simp only [openPipes, Program.ensures_bind, Program.ensures_pure]
  refine (ensures_openPipe_table ..).mono (fun stdin q₁ first => ?_) (fun _ _ way => way)
  refine (ensures_openPipe_table ..).mono (fun stdout q₂ second => ?_) (fun _ _ way => way)
  refine (ensures_openPipe_table ..).mono (fun stderr q₃ third => ?_) (fun _ _ way => way)
  refine (ensures_openPipe_table ..).mono (fun errno q₄ fourth => ?_) (fun _ _ way => way)
  constructor
  · simp only [first, second, third, fourth]
    rfl
  · simp only [first, second, third, fourth]
    rfl

theorem leaves_closeOnExec (p : Pipes) : Leaves (fun fds => fds.setCloexec p.errno.2) (closeOnExec env p) := by
  have flags : Leaves id (retry (C.getfd p.errno.2) (env.attempts .getfd)) := by
    intro q
    apply ensures_retry (fun r => r.fds = q.fds) _ rfl
    · exact fun _ _ _ _ kept => kept
    · exact fun _ _ kept => kept
    · exact fun _ _ _ kept => kept
    · exact fun _ _ _ => Exit.noConfusion
  refine flags.bind (g := fun fds => fds.setCloexec p.errno.2) fun _ => ?_
  apply leaves_retry
  · exact fun _ => leaves_pure ()
  · exact fun e q => by simp [fail, errno]
  · exact fun _ => rfl

/-- A run that starts the new image does so with the computed table. -/
theorem run_files (isChild : env.pid = 0) (a : Args) (files : Stream → Option String) (fds : Table)
    (e₀ : Errno) (started : (run env (a.withFiles files) (.start fds e₀)).1 = .replaced) :
    (run env (a.withFiles files) (.start fds e₀)).2.fds =
      fds.atFork.childFiles fds.pipes.1 a.stdin files := by
  refine run_of_ensures (a.withFiles files)
    (fun exit after => exit = .replaced → after.fds = fds.atFork.childFiles fds.pipes.1 a.stdin files)
    ?_ started
  simp only [spawn, Program.ensures_bind]
  refine (ensures_openPipes_table _).mono (fun p q₁ opened => ?_) (fun _ _ => not_replaced)
  refine (leaves_closeOnExec p q₁).mono (fun _ q₂ marked => ?_) (fun _ _ => not_replaced)
  have table : q₂.fds = fds.atFork := by
    rw [marked, opened.1, opened.2]
    rfl
  apply ensures_retry (fun r => r.fds = fds.atFork) _ table
  · exact fun _ _ _ _ kept => kept
  · intro r _ kept
    simp only [isChild, if_true]
    rw [opened.1]
    refine (ensures_child_files a _ files _).mono (fun _ _ way => way) (fun _ _ reached same => ?_)
    rw [reached same, ← kept]
    rfl
  · exact fun _ _ _ _ => not_replaced Exit.noConfusion
  · exact fun _ _ _ => not_replaced Exit.noConfusion

end Run

section Table

variable {fds : Table} {target : Option String} {writer : Fd} {dest : Stream}

theorem lowestFree_ne {fd : Fd} (occupied : fds.get fd ≠ none) : fds.lowestFree ≠ fd := by
  rintro rfl
  exact occupied fds.get_lowestFree

def Stream.pipeName : Stream → PipeName
  | .stdout => .stdout
  | .stderr => .stderr

/-- What a stream refers to once it is connected. -/
def Stream.file (stream : Stream) : Option String → File
  | some name => .opened (.filename name) stream.fd
  | none => .pipeEnd stream.pipeName .write

theorem Table.connect_file {name : String} (occupied : fds.get dest.fd ≠ none) :
    (fds.connect (some name) writer dest).get dest.fd =
      some { file := .opened (.filename name) dest.fd } := by
  have different := lowestFree_ne occupied
  simp only [Table.connect, Table.redirectFile]
  rw [DescriptorTable.get_close_of_ne _ different.symm,
    Table.dup2_self different (DescriptorTable.get_set_self ..)]

/-- Connecting one stream leaves every other open descriptor alone. -/
theorem Table.connect_of_ne {fd : Fd} (other : fd ≠ dest.fd) (occupied : fds.get fd ≠ none) :
    (fds.connect target writer dest).get fd = fds.get fd := by
  cases target with
  | none => exact Table.dup2_of_ne other
  | some name =>
    have different := (lowestFree_ne occupied).symm
    simp only [Table.connect, Table.redirectFile]
    rw [DescriptorTable.get_close_of_ne _ different, Table.dup2_of_ne other,
      DescriptorTable.get_set_of_ne _ different]

/-- A stream that is connected refers to its file or its pipe. -/
theorem Table.connect_self (occupied : fds.get dest.fd ≠ none) (different : writer ≠ dest.fd)
    (pipe : fds.get writer = some { file := .pipeEnd dest.pipeName .write }) (target : Option String) :
    (fds.connect target writer dest).get dest.fd = some { file := dest.file target } := by
  cases target with
  | some name => exact Table.connect_file occupied
  | none => exact Table.dup2_self different pipe

/-- Before its streams are connected, the child has them as the parent had them, and the pipes. -/
theorem Table.childBase (fds : Table) (stdin : Option Bytes) {stream : Stream}
    (occupied : fds.get stream.fd ≠ none) :
    (if stdin.isSome then fds.atFork.dup2 fds.pipes.1.stdin.1 STDIN else fds.atFork).get stream.fd =
      fds.get stream.fd := by
  have high : stream.fd ≠ STDIN := by cases stream <;> decide
  have kept := Table.atFork_frame (Table.not_mem_all occupied)
  split_ifs
  · rw [Table.dup2_of_ne high, kept]
  · exact kept

theorem Table.childFiles_get (fds : Table) (stdin : Option Bytes) (files : Stream → Option String)
    (fd : Fd) : (fds.atFork.childFiles fds.pipes.1 stdin files).get fd =
      if fd ∈ fds.pipes.1.childClosed then none else
        (((if stdin.isSome then fds.atFork.dup2 fds.pipes.1.stdin.1 STDIN else fds.atFork).connect
          (files .stdout) fds.pipes.1.stdout.2 .stdout).connect (files .stderr)
            fds.pipes.1.stderr.2 .stderr).get fd := foldl_close_get _ _ _

/-- A stream that was open in the parent refers to its file or its pipe in the new image, one that
was closed is closed again. -/
theorem Table.childFiles_stream (fds : Table) (stdin : Option Bytes) (files : Stream → Option String)
    (stream : Stream) :
    (fds.atFork.childFiles fds.pipes.1 stdin files).get stream.fd =
      if fds.get stream.fd = none then none else some { file := stream.file (files stream) } := by
  have above := fds.pipes_opened.above
  rw [Table.childFiles_get]
  rcases eq_or_ne (fds.get stream.fd) none with free | occupied
  · rw [if_pos free, if_pos]
    have low : stream.fd ≤ STDERR := by cases stream <;> decide
    have member : stream.fd ∈ fds.pipes.1.all := fds.pipes_opened.taken.least _
      (Pipes.fd_mem_all _ .stderr .read) _ (lt_of_le_of_lt low above.2.2.1) free
    refine (Pipes.mem_childClosed.mpr member).resolve_right (fun last => ?_)
    exact absurd (last ▸ low) (not_le.mpr above.2.2.2.2)
  · have absent := Table.not_mem_all occupied
    rw [if_neg occupied, if_neg (fun member => absent (Pipes.mem_childClosed.mp (.inl member)))]
    have base : ∀ stream : Stream, fds.get stream.fd ≠ none →
        (if stdin.isSome then fds.atFork.dup2 fds.pipes.1.stdin.1 STDIN else fds.atFork).get stream.fd ≠
          none := fun stream held => by rwa [fds.childBase stdin held]
    cases stream with
    | stdout =>
      have high : STDOUT < fds.pipes.1.stdout.2 := lt_trans (by decide) above.2.1
      have pipe := redirected_end stdin .stdout .write _ rfl (lt_trans (by decide) high) (by decide)
      have own := Table.connect_self (base .stdout occupied) (Nat.ne_of_gt high) pipe (files .stdout)
      rw [Table.connect_of_ne (by decide) (own.trans_ne (Option.some_ne_none _)), own]
    | stderr =>
      have high : STDOUT < fds.pipes.1.stderr.2 := lt_trans (by decide) above.2.2.2.1
      have pipe := redirected_end stdin .stderr .write _ rfl (lt_trans (by decide) high) (by decide)
      have kept : STDERR ≠ STDOUT := by decide
      apply Table.connect_self
      · rw [Table.connect_of_ne kept (base .stderr occupied)]
        exact base .stderr occupied
      · exact Nat.ne_of_gt above.2.2.2.1
      · exact (Table.connect_of_ne (Nat.ne_of_gt high) (pipe.trans_ne (Option.some_ne_none _))).trans pipe

end Table

def O_WRONLY : ℕ := 0o1
def O_CREAT : ℕ := 0o100
def O_TRUNC : ℕ := 0o1000
def O_APPEND : ℕ := 0o2000

/-- The flags `ffiext.open` passes. -/
def openFlags : ℕ := O_WRONLY ||| O_CREAT

section Disk

variable {ι : Type} [DecidableEq ι] (resolve : String → ι)

/-- What the files hold, where there are any, and the offset of every open file. Names that resolve to the same
file are different names for it. -/
structure Disk (ι : Type) where
  content : ι → Option Bytes
  offset : File → ℕ

/-- `open(2)` of a file for writing, with `O_CREAT`. -/
def Disk.open (disk : Disk ι) (flags : ℕ) (named : ι) (file : File) : Disk ι where
  content := Function.update disk.content named
    (some (if flags &&& O_TRUNC ≠ 0 then [] else (disk.content named).getD []))
  offset := Function.update disk.offset file 0

/-- `write(2)`. A number that is not open, or is something other than a file, changes no file. -/
def Disk.write (disk : Disk ι) (flags : ℕ) (fds : Table) (fd : Fd) (bytes : Bytes) : Disk ι :=
  match fds.get fd with
  | some ⟨.opened (.filename name) dest, _⟩ =>
      let content := (disk.content (resolve name)).getD []
      let offset := if flags &&& O_APPEND ≠ 0 then content.length
        else disk.offset (.opened (.filename name) dest)
      { content := Function.update disk.content (resolve name) (some (writeAt 0 content offset bytes))
        offset := Function.update disk.offset (.opened (.filename name) dest) (offset + bytes.length) }
  | _ => disk

/-- The redirection of one stream opens its file. -/
def Disk.openFor (disk : Disk ι) (files : Stream → Option String) (stream : Stream) : Disk ι :=
  match files stream with
  | some name => disk.open openFlags (resolve name) (stream.file (some name))
  | none => disk

/-- The disk when the child starts its image. -/
def Disk.atExec (previous : ι → Option Bytes) (files : Stream → Option String) : Disk ι :=
  (Disk.openFor resolve { content := previous, offset := fun _ => 0 } files .stdout).openFor resolve files .stderr

/-- The disk after the child has made these writes. -/
def Disk.writes (disk : Disk ι) (fds : Table) (writes : List (Stream × Bytes)) : Disk ι :=
  writes.foldl (fun disk write => disk.write resolve openFlags fds write.1.fd write.2) disk

/-- The stream goes to this file. -/
def GoesTo (files : Stream → Option String) (stream : Stream) (file : ι) : Prop :=
  (files stream).map resolve = some file

instance (files : Stream → Option String) (stream : Stream) (file : ι) :
    Decidable (GoesTo resolve files stream file) := inferInstanceAs (Decidable (_ = _))

/-- The bytes sent to one file, under any name, in order. A write to a closed descriptor fails and sends nothing. -/
def sentTo (before : Table) (files : Stream → Option String) (file : ι) (writes : List (Stream × Bytes)) :
    List (Stream × Byte) :=
  writes.flatMap fun write =>
    if GoesTo resolve files write.1 file ∧ before.get write.1.fd ≠ none then write.2.map (write.1, ·) else []

/-- The two descriptors of the child after its redirections. -/
def Connected (before : Table) (files : Stream → Option String) (fds : Table) : Prop :=
  ∀ stream : Stream, fds.get stream.fd =
    if before.get stream.fd = none then none else some { file := stream.file (files stream) }

theorem Stream.file_inj {writer other : Stream} {name name' : String}
    (same : writer.file (some name) = other.file (some name')) : writer = other := by
  cases writer <;> cases other <;> first | rfl | exact absurd (File.opened.inj same).2 (by decide)

/-- The offset of each redirection of a file. -/
def Disk.offsets (disk : Disk ι) (files : Stream → Option String) (file : ι) (writer : Stream) : ℕ :=
  if GoesTo resolve files writer file then disk.offset (writer.file (files writer)) else 0

variable {resolve} {disk : Disk ι} {fds before : Table} {files : Stream → Option String} {file : ι}
  {stream : Stream} {bytes : Bytes}

/-- A write through a redirected stream. -/
theorem Disk.write_own (connected : Connected before files fds) (own : GoesTo resolve files stream file)
    (live : before.get stream.fd ≠ none) :
    (disk.write resolve openFlags fds stream.fd bytes).content file =
        some (writeAt 0 ((disk.content file).getD []) (disk.offsets resolve files file stream) bytes) ∧
      (disk.write resolve openFlags fds stream.fd bytes).offsets resolve files file =
        Function.update (disk.offsets resolve files file) stream
          (disk.offsets resolve files file stream + bytes.length) := by
  obtain ⟨name, named, rfl⟩ := Option.map_eq_some_iff.mp own
  have entry := connected stream
  rw [if_neg live, named] at entry
  have here : disk.offsets resolve files (resolve name) stream = disk.offset (stream.file (some name)) := by
    rw [Disk.offsets, if_pos own, named]
  have written : disk.write resolve openFlags fds stream.fd bytes =
      { content := Function.update disk.content (resolve name) (some (writeAt 0
          ((disk.content (resolve name)).getD []) (disk.offset (stream.file (some name))) bytes))
        offset := Function.update disk.offset (stream.file (some name))
          (disk.offset (stream.file (some name)) + bytes.length) } := by
    simp only [Disk.write, entry, Stream.file]
    rfl
  rw [written, here]
  constructor
  · exact Function.update_self ..
  · funext writer
    rcases eq_or_ne writer stream with rfl | different
    · rw [Function.update_self, Disk.offsets, if_pos own, named]
      exact Function.update_self ..
    · rw [Function.update_of_ne different]
      refine ite_congr rfl (fun goes => ?_) (fun _ => rfl)
      obtain ⟨name', named', -⟩ := Option.map_eq_some_iff.mp goes
      rw [named']
      exact Function.update_of_ne (fun same => different (Stream.file_inj same)) ..

/-- A write that goes elsewhere leaves the file and the offsets into it. -/
theorem Disk.write_other (connected : Connected before files fds)
    (other : ¬ (GoesTo resolve files stream file ∧ before.get stream.fd ≠ none)) :
    (disk.write resolve openFlags fds stream.fd bytes).content file = disk.content file ∧
      (disk.write resolve openFlags fds stream.fd bytes).offsets resolve files file =
        disk.offsets resolve files file := by
  have entry := connected stream
  split_ifs at entry with closed
  · simp [Disk.write, entry]
  · cases named : files stream with
    | none => simp [Disk.write, entry, named, Stream.file]
    | some name =>
      have elsewhere : ¬ GoesTo resolve files stream file := fun goes => other ⟨goes, closed⟩
      have different : file ≠ resolve name := by
        rintro rfl
        exact elsewhere (congrArg (Option.map resolve) named)
      constructor
      · simp [Disk.write, entry, named, Stream.file, different]
      · funext writer
        refine ite_congr rfl (fun goes => ?_) (fun _ => rfl)
        obtain ⟨name', named', -⟩ := Option.map_eq_some_iff.mp goes
        have apart : writer.file (some name') ≠ stream.file (some name) := by
          intro same
          obtain rfl := Stream.file_inj same
          exact elsewhere goes
        rw [named']
        simp only [Disk.write, entry, named, Stream.file] at apart ⊢
        exact Function.update_of_ne apart ..

/-- Every run of writes, on one file. -/
theorem Disk.writes_content (connected : Connected before files fds) {content : Bytes}
    (holds : disk.content file = some content) (inside : Inside (disk.offsets resolve files file) content)
    (writes : List (Stream × Bytes)) :
    (disk.writes resolve fds writes).content file =
      some (contentAfter 0 (disk.offsets resolve files file) content
        (sentTo resolve before files file writes)) := by
  induction writes generalizing disk content with
  | nil => exact holds
  | cons write writes ih =>
    obtain ⟨stream, bytes⟩ := write
    have first : disk.writes resolve fds ((stream, bytes) :: writes) =
        (disk.write resolve openFlags fds stream.fd bytes).writes resolve fds writes := rfl
    rw [first, sentTo, List.flatMap_cons, ← sentTo]
    split_ifs with own
    · obtain ⟨written, offsets⟩ : (disk.write resolve openFlags fds stream.fd bytes).content file = _ ∧
          (disk.write resolve openFlags fds stream.fd bytes).offsets resolve files file = _ :=
        Disk.write_own connected own.1 own.2
      rw [holds] at written
      rw [contentAfter_append inside, ← offsets]
      apply ih written
      rw [offsets]
      exact inside.write 0 stream bytes
    · obtain ⟨untouched, offsets⟩ : (disk.write resolve openFlags fds stream.fd bytes).content file = _ ∧
          (disk.write resolve openFlags fds stream.fd bytes).offsets resolve files file = _ :=
        Disk.write_other connected own
      rw [List.nil_append, ← offsets]
      apply ih (untouched.trans holds)
      rwa [offsets]

theorem Disk.openFor_offset (zero : ∀ file, disk.offset file = 0) (file : File) :
    (disk.openFor resolve files stream).offset file = 0 := by
  rw [Disk.openFor]
  cases files stream with
  | none => exact zero file
  | some name =>
    simp only [Disk.open, Function.update_apply, zero]
    exact ite_self 0

/-- No flag empties a file that is opened. -/
theorem Disk.openFor_content (disk : Disk ι) (files : Stream → Option String) (stream : Stream) (file : ι) :
    ((disk.openFor resolve files stream).content file).getD [] = (disk.content file).getD [] ∧
      (GoesTo resolve files stream file ∨ (disk.content file).isSome →
        ((disk.openFor resolve files stream).content file).isSome) := by
  have kept : ¬ openFlags &&& O_TRUNC ≠ 0 := by decide
  rw [Disk.openFor, GoesTo]
  cases files stream with
  | none => simp
  | some name =>
    simp only [Disk.open, if_neg kept]
    rcases eq_or_ne file (resolve name) with rfl | different
    · simp
    · simp [different, different.symm]

theorem Disk.atExec_content (previous : ι → Option Bytes) (own : GoesTo resolve files stream file) :
    (Disk.atExec resolve previous files).content file = some ((previous file).getD []) := by
  obtain ⟨first, created⟩ := @Disk.openFor_content ι _ resolve
    { content := previous, offset := fun _ => 0 } files .stdout file
  obtain ⟨second, created'⟩ := @Disk.openFor_content ι _ resolve
    (Disk.openFor resolve { content := previous, offset := fun _ => 0 } files .stdout) files .stderr file
  have exists_ : ((Disk.atExec resolve previous files).content file).isSome := by
    apply created'
    cases stream with
    | stdout => exact .inr (created (.inl own))
    | stderr => exact .inl own
  obtain ⟨content, holds⟩ := Option.isSome_iff_exists.mp exists_
  have same := second.trans first
  rw [← Disk.atExec, holds, Option.getD_some] at same
  rw [holds, same]

/-- What a named file holds once the child is done. -/
theorem Disk.final_content (connected : Connected before files fds) (previous : ι → Option Bytes)
    (own : GoesTo resolve files stream file) (writes : List (Stream × Bytes)) :
    ((Disk.atExec resolve previous files).writes resolve fds writes).content file =
      some (contentAfter 0 (fun _ => 0) ((previous file).getD []) (sentTo resolve before files file writes)) := by
  have zero : (Disk.atExec resolve previous files).offsets resolve files file = fun _ => 0 := by
    funext writer
    have start : (Disk.atExec resolve previous files).offset (writer.file (files writer)) = 0 :=
      Disk.openFor_offset (Disk.openFor_offset fun _ => rfl) _
    rw [Disk.offsets, start, ite_self]
  rw [Disk.writes_content connected (Disk.atExec_content previous own) ?_ writes, zero]
  rw [zero]
  exact fun _ => Nat.zero_le _

end Disk

section Kept

variable {old : Bytes} {log : List (Stream × Byte)}

/-- How much of a file the streams write: as much as the one that writes more. -/
def covered (log : List (Stream × Byte)) : ℕ :=
  max (log.countP (·.1 = .stdout)) (log.countP (·.1 = .stderr))

/-- Both streams write, but no byte is missed: the old content is exactly as long as the output, it
is the output where no stream comes, and where both come they write what belongs there. -/
structure Coincides (old : Bytes) (log : List (Stream × Byte)) : Prop where
  length : old.length = log.length
  tail : ∀ i, covered log ≤ i → old[i]? = log[i]?.map Prod.snd
  overlap : ∀ i < covered log, landed (fun _ => 0) log i = log[i]?.map Prod.snd

/-- The output as the file shows it: one stream writes all of it, over everything that was there. -/
def Kept (old : Bytes) (log : List (Stream × Byte)) : Prop :=
  ((∃ writer, ∀ entry ∈ log, entry.1 = writer) ∧ old.length ≤ log.length) ∨ Coincides old log

theorem landed_of_covered {i : ℕ} : (landed (fun _ => 0) log i).isSome ↔ i < covered log := by
  rw [landed_isSome_iff, covered, lt_max_iff]
  constructor
  · rintro ⟨writer, -, below⟩
    cases writer with
    | stdout => exact .inl (by omega)
    | stderr => exact .inr (by omega)
  · rintro (below | below)
    · exact ⟨.stdout, by omega, by omega⟩
    · exact ⟨.stderr, by omega, by omega⟩

theorem length_eq_count : log.length = log.countP (·.1 = .stdout) + log.countP (·.1 = .stderr) := by
  rw [List.length_eq_countP_add_countP (fun entry : Stream × Byte => decide (entry.1 = .stdout))]
  congr 1
  apply List.countP_congr
  rintro ⟨writer, b⟩ -
  cases writer <;> simp

/-- Two streams that both write cover less than what they write. -/
theorem covered_lt (both : ¬ ∃ writer, ∀ entry ∈ log, entry.1 = writer) : covered log < log.length := by
  rw [length_eq_count, covered]
  have silent (writer : Stream) (none : log.countP (·.1 = writer) = 0) :
      ∀ entry ∈ log, entry.1 = writer.other := by
    intro entry member
    have other := List.countP_eq_zero.mp none entry member
    exact Stream.eq_other_of_ne (by simpa using other)
  have stdout : log.countP (·.1 = .stdout) ≠ 0 := fun none => both ⟨_, silent .stdout none⟩
  have stderr : log.countP (·.1 = .stderr) ≠ 0 := fun none => both ⟨_, silent .stderr none⟩
  omega

theorem final_getElem? (i : ℕ) :
    (contentAfter 0 (fun _ => 0) old log)[i]? = (landed (fun _ => 0) log i).or old[i]? :=
  getElem?_contentAfter (fun _ : Stream => Nat.zero_le _) i

theorem landed_eq_none {i : ℕ} (beyond : covered log ≤ i) : landed (fun _ => 0) log i = none := by
  rw [← Option.not_isSome_iff_eq_none, landed_of_covered]
  exact not_lt.mpr beyond

/-- The last byte of the output is not covered by two streams that share a file, so it was there. -/
theorem coincides_of_final (both : ¬ ∃ writer, ∀ entry ∈ log, entry.1 = writer)
    (final : ∀ i, (landed (fun _ => 0) log i).or old[i]? = log[i]?.map Prod.snd) : Coincides old log := by
  have short := covered_lt both
  have tail : ∀ i, covered log ≤ i → old[i]? = log[i]?.map Prod.snd := by
    intro i beyond
    rw [← final, landed_eq_none beyond, Option.none_or]
  refine ⟨?_, tail, ?_⟩
  · have last := tail (log.length - 1) (by omega)
    have past := tail log.length (by omega)
    rw [List.getElem?_eq_getElem (show log.length - 1 < log.length by omega), Option.map_some] at last
    rw [List.getElem?_eq_none le_rfl, Option.map_none, List.getElem?_eq_none_iff] at past
    have := (List.getElem?_eq_some_iff.mp last).1
    omega
  · intro i below
    obtain ⟨b, found⟩ := Option.isSome_iff_exists.mp (landed_of_covered.mpr below)
    rw [← final, found, Option.some_or]

/-- Exactly when the file ends up with the output and nothing else. -/
theorem contentAfter_eq_iff : contentAfter 0 (fun _ => 0) old log = log.map Prod.snd ↔ Kept old log := by
  have pointwise : contentAfter 0 (fun _ => 0) old log = log.map Prod.snd ↔
      ∀ i, (landed (fun _ => 0) log i).or old[i]? = log[i]?.map Prod.snd := by
    simp only [List.ext_getElem?_iff, final_getElem?, List.getElem?_map]
  rw [pointwise]
  constructor
  · intro final
    refine or_iff_not_imp_right.mpr fun apart => ?_
    have single := by_contra fun both => apart (coincides_of_final both final)
    refine ⟨single, ?_⟩
    have past := final log.length
    rw [List.getElem?_eq_none le_rfl, Option.map_none, Option.or_eq_none_iff] at past
    exact List.getElem?_eq_none_iff.mp past.2
  · rintro (⟨⟨writer, single⟩, short⟩ | ⟨length, tail, overlap⟩) i
    · have written := @landed_of_single _ _ _ (fun _ => 0) _ _ single i
      rw [Nat.zero_add] at written
      rw [written]
      rcases Nat.lt_or_ge i log.length with below | beyond
      · rw [List.getElem?_eq_getElem below]
        rfl
      · rw [List.getElem?_eq_none beyond, List.getElem?_eq_none (by omega)]
        rfl
    · rcases Nat.lt_or_ge i (covered log) with below | beyond
      · obtain ⟨b, found⟩ := Option.isSome_iff_exists.mp (landed_of_covered.mpr below)
        rw [← overlap i below, found, Option.some_or]
      · rw [landed_eq_none beyond, Option.none_or, tail i beyond]

end Kept

/-- Every named file holds what was sent to it, and nothing else. -/
def FilesHold {ι : Type} [DecidableEq ι] (resolve : String → ι) (before : Table)
    (files : Stream → Option String) (writes : List (Stream × Bytes)) (disk : Disk ι) : Prop :=
  ∀ stream file, GoesTo resolve files stream file →
    disk.content file = some ((sentTo resolve before files file writes).map Prod.snd)

theorem run_connected {env : Environment} (isChild : env.pid = 0) (a : Args)
    (files : Stream → Option String) (before : Table) (e₀ : Errno)
    (started : (run env (a.withFiles files) (.start before e₀)).1 = .replaced) :
    Connected before files (run env (a.withFiles files) (.start before e₀)).2.fds := by
  rw [run_files isChild a files before e₀ started]
  exact before.childFiles_stream a.stdin files

/-- After a child whose outputs go to files has run, for every old content, every order of its writes and whatever
names stand for the same file. -/
theorem filesHold_iff {ι : Type} [DecidableEq ι] (resolve : String → ι) (env : Environment) (a : Args)
    (files : Stream → Option String) (before : Table) (e₀ : Errno) (isChild : env.pid = 0)
    (started : (run env (a.withFiles files) (.start before e₀)).1 = .replaced)
    (previous : ι → Option Bytes) (writes : List (Stream × Bytes)) :
    FilesHold resolve before files writes ((Disk.atExec resolve previous files).writes resolve
        (run env (a.withFiles files) (.start before e₀)).2.fds writes) ↔
      ∀ stream file, GoesTo resolve files stream file →
        Kept ((previous file).getD []) (sentTo resolve before files file writes) := by
  apply forall₃_congr
  intro stream file own
  rw [Disk.final_content (run_connected isChild a files before e₀ started) previous own, Option.some_inj]
  exact contentAfter_eq_iff

section Started

variable {env : Environment}

theorem settle_of_succeeds (succeeds : env.Succeeds) (site : Site) :
    settle (env.attempts site) = some none := by
  obtain ⟨rest, same⟩ := List.head?_eq_some_iff.mp (succeeds site)
  rw [same, settle_success]

/-- With descriptor 0 open, a file redirection in which no call fails returns true. -/
theorem redirect_of_succeeds (succeeds : env.Succeeds) {fds : Table} (held : fds.get STDIN ≠ none)
    (name : String) (dest : Stream) :
    fds.redirect env (.filename name) dest = some (fds.redirectFile (.filename name) dest none) := by
  have unnamed : ¬ (Target.filename name).names dest.other := by simp [Target.names]
  have path : (Target.filename name).isPath = true := rfl
  have positive : fds.lowestFree ≠ 0 := fun zero => held (lowestFree_eq_zero_iff.mp zero)
  rw [Table.redirect, if_neg unnamed, if_pos path]
  simp only [settle_of_succeeds succeeds, if_neg positive, Option.map_some]

theorem connect_of_succeeds (succeeds : env.Succeeds) (p : Pipes) (target : Option String) (writer : Fd)
    (dest : Stream) {q : Proc} (held : q.fds.get STDIN ≠ none) {exit : Exit → Proc → Prop} :
    Program.Ensures (connect env p (target.map .filename) writer dest.fd) q
      (fun _ after => after.fds.get STDIN ≠ none) exit := by
  have low : STDIN ≠ dest.fd := by cases dest <;> decide
  have kept : (q.fds.connect target writer dest).get STDIN ≠ none := by
    rwa [Table.connect_of_ne low held]
  cases target with
  | none =>
    simp only [connect, Option.map_none, Program.ensures_bind, C.dup2]
    rw [ensures_retry_ok (succeeds _)]
    exact kept
  | some name =>
    simp only [connect, Option.map_some, Program.ensures_bind]
    have known := redirect_of_succeeds succeeds held name dest
    refine (ensures_redirect _ dest q).mono (fun result after returned => ?_) (fun exit _ ended => ?_)
    · rw [known] at returned
      obtain ⟨ok, fds⟩ := Prod.mk.inj (Option.some.inj returned)
      cases result with
      | error e => exact Bool.noConfusion ok
      | ok value =>
        rw [Program.ensures_pure, ← fds]
        exact kept
    · rw [known] at ended
      exact absurd ended.1 (Option.some_ne_none _)

/-- A child in which no call fails starts its image. -/
theorem started_of_succeeds (succeeds : env.Succeeds) (isChild : env.pid = 0) (a : Args)
    (files : Stream → Option String) {before : Table} (held : before.get STDIN ≠ none) (e₀ : Errno) :
    (run env (a.withFiles files) (.start before e₀)).1 = .replaced := by
  apply run_of_ensures (a.withFiles files) (fun exit _ => exit = .replaced)
  simp only [spawn, openPipes, openPipe, closeOnExec, Program.ensures_bind, C.pipe, C.getfd,
    C.setfd, C.fork]
  iterate 4 rw [ensures_once_ok (succeeds _), Program.ensures_pure]
  rw [Program.ensures_pure, ensures_retry_ok (succeeds _), ensures_retry_ok (succeeds _),
    Program.ensures_pure, ensures_retry_ok (succeeds _)]
  simp only [isChild, if_true, child, Args.withFiles, Program.ensures_bind]
  refine (ensures_connectStdin succeeds _ a.stdin _).mono (fun _ q₁ stdin => ?_) (fun _ _ way => way)
  have held₁ : q₁.fds.get STDIN ≠ none := by
    have forked : before.atFork.get STDIN ≠ none := by
      rwa [Table.atFork_frame (Table.not_mem_all held)]
    rw [stdin]
    split_ifs
    · exact Table.dup2_occupied forked
    · exact forked
  refine (connect_of_succeeds succeeds _ (files .stdout) _ .stdout held₁).mono (fun _ q₂ held₂ => ?_)
    (fun _ _ way => way)
  refine (connect_of_succeeds succeeds _ (files .stderr) _ .stderr held₂).mono (fun _ q₃ _ => ?_)
    (fun _ _ way => way)
  refine (ensures_setenvs succeeds _ 0 a.env q₃).mono (fun _ q₄ _ => ?_) (fun _ _ way => way)
  refine (ensures_changeDirectory succeeds _ a.cwd q₄).mono (fun _ q₅ _ => ?_) (fun _ _ way => way)
  refine (ensures_childCloses _ q₅).mono (fun _ q₆ _ => ?_) (fun _ _ way => way)
  rw [C.execv, ensures_retry_ok (succeeds _)]
  rfl

end Started

/-- Both outputs to one file, as for `cmd > log 2> log`. -/
def bothToLog (_ : Stream) : Option String := some "log"

/-- Only the standard output to a file. -/
def stdoutToOut (stream : Stream) : Option String := if stream = .stdout then some "out" else none

theorem standard_started (a : Args) (files : Stream → Option String) :
    (run .quietChild (a.withFiles files) (.start .standard 0)).1 = .replaced :=
  started_of_succeeds Environment.quietChild_succeeds rfl a files (by decide) 0

theorem filesHold_new : FilesHold id .standard stdoutToOut [(.stdout, [104, 105])]
    ((Disk.atExec id (fun _ => none) stdoutToOut).writes id
      (run .quietChild (Args.withFiles { exe := "/bin/echo" } stdoutToOut) (.start .standard 0)).2.fds
      [(.stdout, [104, 105])]) := by
  apply (filesHold_iff id .quietChild { exe := "/bin/echo" } stdoutToOut .standard 0 rfl
    (standard_started _ _) (fun _ => none) [(.stdout, [104, 105])]).mpr
  intro stream file own
  cases stream with
  | stderr => exact absurd own (Option.some_ne_none file).symm
  | stdout =>
    obtain rfl : "out" = file := Option.some.inj own
    exact .inl ⟨⟨.stdout, by decide⟩, by decide⟩

/-- The second stream starts at the beginning of the file again. -/
theorem bothToLog_overwrites : ¬ ∀ (env : Environment) (a : Args) (files : Stream → Option String)
    (before : Table) (e₀ : Errno), env.pid = 0 →
    (run env (a.withFiles files) (.start before e₀)).1 = .replaced →
    ∀ (previous : String → Option Bytes) (writes : List (Stream × Bytes)),
      FilesHold id before files writes ((Disk.atExec id previous files).writes id
        (run env (a.withFiles files) (.start before e₀)).2.fds writes) := by
  intro holds
  have started := standard_started { exe := "/bin/ls" } bothToLog
  have logged : GoesTo id bothToLog .stdout "log" := rfl
  have kept := holds .quietChild { exe := "/bin/ls" } bothToLog .standard 0 rfl started (fun _ => none)
    [(.stdout, [97]), (.stderr, [98])] .stdout "log" logged
  rw [Disk.final_content (run_connected rfl _ _ _ _ started) _ logged, Option.some_inj] at kept
  exact absurd kept (by decide)

end OmniaJit.Exec
