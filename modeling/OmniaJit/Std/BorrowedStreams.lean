import OmniaJit.Lua.Io

/-! # The file helpers and the default streams

`fprintf`, `truncate`, `read_all` and `head` put a file of their own in the place of a default stream
and put the old one back. `truncate` gives everything back. The others do so unless they get as far as
opening a file, raise an error between the two, or meet a file that cannot be opened.
-/

namespace OmniaJit.Std

open OmniaJit.Machine OmniaJit.Lua OmniaJit.Lua.Io

variable (sys : System)

/-- A handle as an argument, nil if there is none. -/
def handleArg : Option ℕ → Arg
  | none => .nil
  | some h => .file h

/-- `fmt.fprintf(file, str, ...)`, where `formatted` is what `F(str, ...)` returns, unless it raises an
error. -/
def fprintf (file : Arg) (formatted : Option Bytes) : M Unit := do
  let o ← io_output sys .nil
  let _ ← io_output sys file
  match formatted with
  | none => throw .format
  | some s => io_write s
  let _ ← io_output sys (.file o)

/-- `file.truncate(file)` -/
def truncate (file : Arg) : M (Except String Bool) := do
  let o ← io_output sys .nil
  let fd ← io_open sys "w+" file
  match fd with
  | some fd => do
    let _ ← io_output sys (.file fd)
    io_write []
    io_close
    let _ ← io_output sys (.file o)
    return .ok true
  | none => return .error "io.open: Cannot open path."

/-- The body of `file.read_all(file)` and of `file.head(file)`, which differ in the format. -/
def readFile (fmt : Format) (file : Arg) : M (Option Bytes) := do
  let o ← io_input sys .nil
  let fd ← io_open sys "r" file
  let _ ← io_input sys (handleArg fd)
  let str ← io_read sys fmt
  io_close
  let _ ← io_input sys (.file o)
  return str

def read_all (file : Arg) : M (Option Bytes) := readFile sys .all file

def head (file : Arg) : M (Option Bytes) := readFile sys (.line true) file

/-- The default streams are open handles. -/
def Ready (s : State) : Prop := ∀ id, ∃ handle, s.handles[s.root id]? = some handle ∧ handle.isOpen

/-- The default streams are the ones of before and still open, nothing has been read from the default
input, and every handle that is new is closed. -/
structure GivenBack (before after : State) : Prop where
  same : after.root = before.root
  ready : Ready after
  unread : (after.handles[before.root .input]?).map Handle.unread =
    (before.handles[before.root .input]?).map Handle.unread
  closed : ∀ h handle, before.handles.length ≤ h → after.handles[h]? = some handle → ¬ handle.isOpen

/-- Whether a call returns or raises an error, everything is given back. -/
def GivesBack {α : Type} (call : M α) (before : State) : Prop :=
  Program.Ensures call before (fun _ after => GivenBack before after) (fun _ after => GivenBack before after)

section Frames

variable {sys : System} {s : State}

/-- Replacing a default stream leaves the handles as they are, also when it fails. -/
theorem ensures_getset_handles (id : Root) (mode : String) (h : ℕ) :
    Program.Ensures (io_std_getset sys id mode (.file h)) s (fun _ after => after.handles = s.handles)
      (fun _ after => after.handles = s.handles) := by
  cases found : s.handles[h]? with
  | none =>
    rw [ensures_getset_missing found]
  | some handle =>
    cases isOpen : handle.isOpen with
    | true => rw [ensures_getset_file found isOpen, setRoot_handles]
    | false => rw [ensures_getset_closed found (by simp [isOpen])]

/-- `io.close()` closes at most the default output, and leaves to every handle what it has not read. -/
theorem ensures_close_frame {handle : Handle} (found : s.handles[s.root .output]? = some handle)
    (isOpen : handle.isOpen) :
    Program.Ensures io_close s
      (fun _ after => (∀ h : ℕ, (after.handles[h]?).map Handle.unread = (s.handles[h]?).map Handle.unread) ∧
        ∀ h ≠ s.root .output, after.handles[h]? = s.handles[h]?)
      (fun _ _ => False) := by
  rcases eq_or_ne handle.type .stdf with standard | file
  · rw [ensures_close_stdf found standard]
    exact ⟨fun _ => rfl, fun _ _ => rfl⟩
  · rw [ensures_close_file found isOpen file]
    constructor
    · intro h
      rcases eq_or_ne h (s.root .output) with rfl | other
      · rw [modifyHandle_self, Option.map_map]
        rfl
      · rw [modifyHandle_of_ne _ _ _ other]
    · exact fun h other => modifyHandle_of_ne s _ _ other

end Frames

section Judgements

variable {before : State}

/-- What holds at every end of a call rules out what it contradicts. -/
theorem not_ensures {α : Type} {call : M α} {now : State} {property wanted : State → Prop}
    (ends : Program.Ensures call now (fun _ after => property after) (fun _ after => property after))
    (violated : ∀ after, property after → ¬ wanted after) :
    ¬ Program.Ensures call now (fun _ after => wanted after) (fun _ after => wanted after) := by
  intro ensures
  have both := ensures.and ends
  simp only [Program.Ensures] at both
  split at both
  · exact violated _ both.2 both.1
  · exact violated _ both.2 both.1

theorem Ready.modifyHandle (ready : Ready before) {f : Handle → Handle}
    (keeps : ∀ handle, (f handle).isOpen = handle.isOpen) (h : ℕ) : Ready (before.modifyHandle h f) := by
  intro id
  obtain ⟨handle, found, isOpen⟩ := ready id
  rw [modifyHandle_root]
  rcases eq_or_ne (before.root id) h with rfl | other
  · exact ⟨f handle, by rw [modifyHandle_self, found, Option.map_some], by rw [keeps, isOpen]⟩
  · exact ⟨handle, by rw [modifyHandle_of_ne _ _ _ other, found], isOpen⟩

theorem Ready.lt (ready : Ready before) (id : Root) : before.root id < before.handles.length := by
  obtain ⟨handle, found, -⟩ := ready id
  exact (List.getElem?_eq_some_iff.mp found).1

theorem Ready.givenBack (ready : Ready before) : GivenBack before before where
  same := rfl
  ready := ready
  unread := rfl
  closed h handle beyond found := by
    rw [List.getElem?_eq_none beyond] at found
    cases found

/-- Old handles as they were, and new ones closed. -/
theorem Ready.givenBack_of_kept (ready : Ready before) {after : State} (same : after.root = before.root)
    (kept : ∀ h < before.handles.length, after.handles[h]? = before.handles[h]?)
    (closed : ∀ h handle, before.handles.length ≤ h → after.handles[h]? = some handle → ¬ handle.isOpen) :
    GivenBack before after where
  same := same
  ready id := by
    rw [same, kept _ (ready.lt id)]
    exact ready id
  unread := by rw [kept _ (ready.lt .input)]
  closed := closed

end Judgements

/-- A new handle in the place of a default stream, and everything else as before. -/
structure Borrowed (id : Root) (before now : State) (handle : Handle) : Prop where
  root : now.root = Function.update before.root id before.handles.length
  kept : ∀ h < before.handles.length, now.handles[h]? = before.handles[h]?
  new : now.handles[before.handles.length]? = some handle
  last : now.handles.length = before.handles.length + 1

section Borrowing

variable {id : Root} {before now : State} {handle : Handle}

theorem borrowed_create (id : Root) (before : State) (unread : Bytes) :
    Borrowed id before ((before.create unread).setRoot id before.handles.length) ⟨.file, true, unread, []⟩ where
  root := rfl
  kept _ bound := create_old before unread bound
  new := create_new before unread
  last := by simp [State.create]

theorem Borrowed.current (borrowed : Borrowed id before now handle) : now.root id = before.handles.length := by
  rw [borrowed.root, Function.update_self]

/-- The other default stream is still there. -/
theorem Borrowed.other (borrowed : Borrowed id before now handle) {id' : Root} (other : id' ≠ id)
    (ready : Ready before) : now.root id' = before.root id' ∧
      now.handles[now.root id']? = before.handles[before.root id']? := by
  have same : now.root id' = before.root id' := by rw [borrowed.root, Function.update_of_ne other]
  constructor
  · exact same
  · rw [same, borrowed.kept _ (ready.lt id')]

theorem Borrowed.found (borrowed : Borrowed id before now handle) : now.handles[now.root id]? = some handle := by
  rw [borrowed.current, borrowed.new]

theorem Borrowed.modify (borrowed : Borrowed id before now handle) (f : Handle → Handle) :
    Borrowed id before (now.modifyHandle (now.root id) f) (f handle) where
  root := borrowed.root
  kept h bound := by
    rw [modifyHandle_of_ne _ _ _ (by rw [borrowed.current]; exact Nat.ne_of_lt bound), borrowed.kept h bound]
  new := by rw [borrowed.current, modifyHandle_self, borrowed.new, Option.map_some]
  last := by rw [modifyHandle_length, borrowed.last]

/-- Closed and replaced by the old stream, the new handle leaves nothing behind. -/
theorem Borrowed.givenBack (borrowed : Borrowed id before now handle) (ready : Ready before)
    (closed : ¬ handle.isOpen) : GivenBack before (now.setRoot id (before.root id)) := by
  apply ready.givenBack_of_kept
  · rw [State.setRoot, borrowed.root, Function.update_idem, Function.update_eq_self]
  · exact borrowed.kept
  · intro h found beyond there
    rw [setRoot_handles] at there
    rcases Nat.eq_or_lt_of_le beyond with rfl | after
    · rw [borrowed.new] at there
      rwa [← Option.some.inj there]
    · have last := borrowed.last
      rw [List.getElem?_eq_none (by omega)] at there
      cases there

end Borrowing

section Helpers

variable {before : State}

/-- The new file is the default output until it is closed, and the old one is still open then. -/
theorem truncate_givesBack (ready : Ready before) (file : Arg) : GivesBack (truncate sys file) before := by
  rw [GivesBack, truncate, Program.ensures_bind, io_output, ensures_getset_nil, Program.ensures_bind]
  cases file with
  | name fname =>
    cases opened : sys.fopen fname "w+" with
    | none =>
      rw [ensures_open_failed opened]
      exact ready.givenBack
    | some unread =>
      rw [ensures_open_opened opened]
      dsimp only
      obtain ⟨o, found, isOpen⟩ := ready .output
      have borrowed := borrowed_create .output before unread
      have written := borrowed.modify fun handle => { handle with written := handle.written ++ [] }
      have closed := written.modify fun handle => { handle with isOpen := false }
      rw [Program.ensures_bind, ensures_getset_file (create_new before unread) rfl, Program.ensures_bind,
        ensures_write [] borrowed.found rfl, Program.ensures_bind,
        ensures_close_file written.found rfl (fun standard => FileType.noConfusion standard),
        Program.ensures_bind, ensures_getset_file ((closed.kept _ (ready.lt .output)).trans found) isOpen]
      exact closed.givenBack ready Bool.false_ne_true
  | _ => exact ready.givenBack

/-- What is written to an old handle is no part of what is given back. -/
theorem Ready.givenBack_of_written (ready : Ready before) {after : State} (same : after.root = before.root)
    {h : ℕ} {text : Bytes} (handles : after.handles = (before.modifyHandle h fun handle =>
      { handle with written := handle.written ++ text }).handles) : GivenBack before after := by
  have entry (h' : ℕ) : ∃ written : Handle → Bytes,
      after.handles[h']? =
        before.handles[h']?.map fun handle : Handle => { handle with written := written handle } := by
    rw [handles]
    rcases eq_or_ne h' h with rfl | other
    · exact ⟨_, modifyHandle_self ..⟩
    · refine ⟨Handle.written, ?_⟩
      rw [modifyHandle_of_ne _ _ _ other]
      exact (Option.map_id' ..).symm
  constructor
  · exact same
  · intro id
    obtain ⟨handle, found, isOpen⟩ := ready id
    obtain ⟨written, changed⟩ := entry (before.root id)
    rw [found, Option.map_some] at changed
    rw [same]
    exact ⟨_, changed, isOpen⟩
  · obtain ⟨written, changed⟩ := entry (before.root .input)
    rw [changed, Option.map_map]
    rfl
  · intro h' handle beyond found
    rw [List.getElem?_eq_none (by rw [handles, modifyHandle_length]; exact beyond)] at found
    cases found

/-- Writing to an open handle in the place of the default output, and putting that back. -/
theorem ensures_write_back (ready : Ready before) {now : State} {h : ℕ} {handle : Handle}
    (handles : now.handles = before.handles) (root : now.root = Function.update before.root .output h)
    (found : before.handles[h]? = some handle) (isOpen : handle.isOpen) (text : Bytes) :
    Program.Ensures (io_write text) now
      (fun _ later => Program.Ensures (io_std_getset sys .output "w" (.file (before.root .output))) later
        (fun _ after => GivenBack before after) (fun _ after => GivenBack before after))
      (fun _ after => GivenBack before after) := by
  have current : now.root .output = h := by rw [root, Function.update_self]
  have open_ : now.handles[now.root .output]? = some handle := by rw [current, handles, found]
  have back : GivenBack before ((now.modifyHandle h fun handle =>
      { handle with written := handle.written ++ text }).setRoot .output (before.root .output)) := by
    apply ready.givenBack_of_written
    · rw [State.setRoot, modifyHandle_root, root, Function.update_idem, Function.update_eq_self]
    · rw [setRoot_handles, State.modifyHandle, handles]
      rfl
  obtain ⟨o, there, stillOpen⟩ := back.ready .output
  rw [setRoot_root_self, setRoot_handles] at there
  rw [ensures_write text open_ isOpen, current, ensures_getset_file there stillOpen]
  exact back

/-- A format that raises an error leaves the stream in place that has been set. -/
theorem fprintf_raising_iff (ready : Ready before) (file : Arg) : GivesBack (fprintf sys file none) before ↔
    (∀ fname, file = .name fname → sys.fopen fname "w" = none) ∧
    ∀ h handle, file = .file h → before.handles[h]? = some handle → handle.isOpen → h = before.root .output := by
  rw [GivesBack, fprintf, Program.ensures_bind, io_output, ensures_getset_nil]
  simp only [Program.ensures_bind, Program.ensures_throw]
  cases file with
  | file h =>
    simp only [reduceCtorEq, false_implies, implies_true, true_and, Arg.file.injEq]
    rcases found : before.handles[h]? with _ | handle
    · rw [ensures_getset_missing found]
      refine iff_of_true ready.givenBack ?_
      rintro _ handle rfl there
      exact absurd (found.symm.trans there) (Option.some_ne_none _).symm
    · cases isOpen : handle.isOpen with
      | false =>
        rw [ensures_getset_closed found (by simp [isOpen])]
        refine iff_of_true ready.givenBack ?_
        rintro _ handle' rfl there isOpen'
        obtain rfl := Option.some.inj (found.symm.trans there)
        exact absurd isOpen' (by simp [isOpen])
      | true =>
        rw [ensures_getset_file found isOpen]
        constructor
        · rintro givenBack _ handle' rfl - -
          have same := congrFun givenBack.same .output
          rwa [setRoot_root_self] at same
        · intro stays
          rw [stays h handle rfl found isOpen, State.setRoot, Function.update_eq_self]
          exact ready.givenBack
  | name fname =>
    simp only [reduceCtorEq, false_implies, implies_true, and_true, Arg.name.injEq, forall_eq']
    cases opened : sys.fopen fname "w" with
    | none =>
      rw [ensures_getset_failed opened]
      exact iff_of_true ready.givenBack rfl
    | some unread =>
      rw [ensures_getset_opened opened]
      refine iff_of_false (fun givenBack => ?_) (Option.some_ne_none _)
      exact givenBack.closed _ _ le_rfl (borrowed_create .output before unread).new rfl
  | _ => exact iff_of_true ready.givenBack (by simp)

/-- A file that has been opened for writing stays open. -/
theorem fprintf_writing_iff (ready : Ready before) (file : Arg) (text : Bytes) :
    GivesBack (fprintf sys file (some text)) before ↔
      ∀ fname, file = .name fname → sys.fopen fname "w" = none := by
  obtain ⟨o, current, stillOpen⟩ := ready .output
  rw [GivesBack, fprintf, Program.ensures_bind, io_output, ensures_getset_nil]
  simp only [Program.ensures_bind, Program.ensures_pure]
  cases file with
  | nil =>
    rw [ensures_getset_nil]
    refine iff_of_true ?_ (by simp)
    exact ensures_write_back sys ready rfl (Function.update_eq_self ..).symm current stillOpen text
  | file h =>
    refine iff_of_true ?_ (by simp)
    rcases found : before.handles[h]? with _ | handle
    · rw [ensures_getset_missing found]
      exact ready.givenBack
    · cases isOpen : handle.isOpen with
      | false =>
        rw [ensures_getset_closed found (by simp [isOpen])]
        exact ready.givenBack
      | true =>
        rw [ensures_getset_file found isOpen]
        exact @ensures_write_back sys before ready (before.setRoot .output h) h handle rfl rfl found isOpen text
  | name fname =>
    simp only [Arg.name.injEq, forall_eq']
    cases opened : sys.fopen fname "w" with
    | none =>
      rw [ensures_getset_failed opened]
      exact iff_of_true ready.givenBack rfl
    | some unread =>
      rw [ensures_getset_opened opened]
      refine iff_of_false (fun givenBack => ?_) (Option.some_ne_none _)
      have borrowed := borrowed_create .output before unread
      have written := borrowed.modify fun handle => { handle with written := handle.written ++ text }
      rw [ensures_write text borrowed.found rfl,
        ensures_getset_file ((written.kept _ (ready.lt .output)).trans current) stillOpen] at givenBack
      exact givenBack.closed _ _ le_rfl written.new rfl
  | other => exact iff_of_true ready.givenBack (by simp)

/-- `fprintf` keeps a file it has opened, and the stream it has set when the format raises an error. -/
theorem fprintf_givesBack_iff (ready : Ready before) (file : Arg) (formatted : Option Bytes) :
    GivesBack (fprintf sys file formatted) before ↔
      (∀ fname, file = .name fname → sys.fopen fname "w" = none) ∧
      (formatted = none → ∀ h handle, file = .file h → before.handles[h]? = some handle → handle.isOpen →
        h = before.root .output) := by
  cases formatted with
  | none => simpa using fprintf_raising_iff sys ready file
  | some text => simpa using fprintf_writing_iff sys ready file text

/-- Closing the default output and setting the default input, after which a fact about the handles holds. -/
theorem ensures_close_back {now : State} {handle : Handle} {property : List Handle → Prop}
    (found : now.handles[now.root .output]? = some handle) (isOpen : handle.isOpen) (i : ℕ)
    (holds : ∀ handles : List Handle,
      (∀ h : ℕ, (handles[h]?).map Handle.unread = (now.handles[h]?).map Handle.unread) →
      (∀ h ≠ now.root .output, handles[h]? = now.handles[h]?) → property handles) :
    Program.Ensures io_close now
      (fun _ later => Program.Ensures (io_std_getset sys .input "r" (.file i)) later
        (fun _ after => property after.handles) (fun _ after => property after.handles))
      (fun _ after => property after.handles) := by
  refine (ensures_close_frame found isOpen).mono (fun _ later kept => ?_) (fun _ _ never => never.elim)
  refine (ensures_getset_handles .input "r" i).mono (fun _ after same => ?_) (fun _ after same => ?_)
  · rw [same]
    exact holds later.handles kept.1 kept.2
  · rw [same]
    exact holds later.handles kept.1 kept.2

section Reading

variable {fmt : Format} {fname : Bytes} {property : State → Prop}

/-- The last two calls of `readFile`, which do not depend on what was read. -/
theorem ensures_readFile (file : Arg) : Program.Ensures (readFile sys fmt file) before
      (fun _ after => property after) (fun _ after => property after) ↔
    Program.Ensures (io_open sys "r" file) before
      (fun fd opened => Program.Ensures (io_std_getset sys .input "r" (handleArg fd)) opened
        (fun _ now => Program.Ensures (io_read sys fmt) now
          (fun _ read => Program.Ensures io_close read
            (fun _ later => Program.Ensures (io_std_getset sys .input "r" (.file (before.root .input))) later
              (fun _ after => property after) (fun _ after => property after))
            (fun _ after => property after))
          (fun _ after => property after))
        (fun _ after => property after))
      (fun _ after => property after) := by
  rw [readFile, Program.ensures_bind, io_input, ensures_getset_nil]
  simp only [Program.ensures_bind, Program.ensures_pure]

/-- A file that has been opened for reading stays open. -/
theorem readFile_keeps (ready : Ready before) {unread : Bytes} (opened : sys.fopen fname "r" = some unread) :
    ¬ GivesBack (readFile sys fmt (.name fname)) before := by
  obtain ⟨o, found, isOpen⟩ := ready .output
  have borrowed := borrowed_create .input before unread
  have read := borrowed.modify fun handle' => { handle' with unread := (fmt.read sys.stdio unread).2 }
  have ends : Program.Ensures (readFile sys fmt (.name fname)) before
      (fun _ after => after.handles[before.handles.length]? =
        some ⟨.file, true, (fmt.read sys.stdio unread).2, []⟩)
      (fun _ after => after.handles[before.handles.length]? =
        some ⟨.file, true, (fmt.read sys.stdio unread).2, []⟩) := by
    rw [ensures_readFile, ensures_open_opened opened, handleArg,
      ensures_getset_file (create_new before unread) rfl, ensures_read fmt borrowed.found rfl]
    obtain ⟨same, there⟩ := read.other (show Root.output ≠ .input by decide) ready
    apply @ensures_close_back sys _ _ (fun handles => handles[before.handles.length]? = _)
      (there.trans found) isOpen
    intro handles _ others
    rw [others _ (by rw [same]; exact Nat.ne_of_gt (ready.lt .output)), read.new]
  exact not_ensures ends fun after there givenBack => givenBack.closed _ _ le_rfl there rfl

/-- If the file cannot be opened, the old default input is read instead. -/
theorem ensures_readFile_failed {i : Handle} (opened : sys.fopen fname "r" = none)
    (source : before.handles[before.root .input]? = some i) (readable : i.isOpen) :
    Program.Ensures (readFile sys fmt (.name fname)) before
      (fun _ after => property after) (fun _ after => property after) ↔
    Program.Ensures io_close (before.modifyHandle (before.root .input) fun handle' =>
        { handle' with unread := (fmt.read sys.stdio i.unread).2 })
      (fun _ later => Program.Ensures (io_std_getset sys .input "r" (.file (before.root .input))) later
        (fun _ after => property after) (fun _ after => property after))
      (fun _ after => property after) := by
  rw [ensures_readFile, ensures_open_failed opened, handleArg, ensures_getset_nil,
    ensures_read fmt source readable]

/-- What has been read from the default input is not given back. -/
theorem readFile_takes (ready : Ready before) {i : Handle} (opened : sys.fopen fname "r" = none)
    (source : before.handles[before.root .input]? = some i) (readable : i.isOpen)
    (moved : (fmt.read sys.stdio i.unread).2 ≠ i.unread) :
    ¬ GivesBack (readFile sys fmt (.name fname)) before := by
  have readyNow := ready.modifyHandle (fun _ => rfl) (before.root .input)
    (f := fun handle' => { handle' with unread := (fmt.read sys.stdio i.unread).2 })
  obtain ⟨o, found, isOpen⟩ := readyNow .output
  have ends : Program.Ensures (readFile sys fmt (.name fname)) before
      (fun _ after => (after.handles[before.root .input]?).map Handle.unread =
        some (fmt.read sys.stdio i.unread).2)
      (fun _ after => (after.handles[before.root .input]?).map Handle.unread =
        some (fmt.read sys.stdio i.unread).2) := by
    rw [ensures_readFile_failed sys opened source readable]
    apply @ensures_close_back sys _ _
      (fun handles => (handles[before.root .input]?).map Handle.unread = _) found isOpen
    intro handles unread _
    rw [unread, modifyHandle_self, source]
    rfl
  apply not_ensures ends
  intro after there givenBack
  rw [givenBack.unread, source, Option.map_some] at there
  exact moved (Option.some.inj there).symm

/-- At the end of the default input, what is left to happen is that the default output is closed. -/
theorem readFile_closes_iff (ready : Ready before) {i o : Handle} (opened : sys.fopen fname "r" = none)
    (source : before.handles[before.root .input]? = some i) (readable : i.isOpen)
    (still : (fmt.read sys.stdio i.unread).2 = i.unread)
    (found : before.handles[before.root .output]? = some o) (isOpen : o.isOpen) :
    GivesBack (readFile sys fmt (.name fname)) before ↔ o.type = .stdf := by
  have nothing : (before.modifyHandle (before.root .input) fun handle' =>
      { handle' with unread := (fmt.read sys.stdio i.unread).2 }) = before := by
    apply modifyHandle_fixed _ _ _ source
    rw [still]
  rw [GivesBack, ensures_readFile_failed sys opened source readable, nothing]
  rcases eq_or_ne o.type .stdf with standard | file
  · rw [ensures_close_stdf found standard, ensures_getset_file source readable, State.setRoot,
      Function.update_eq_self]
    exact iff_of_true ready.givenBack standard
  · refine iff_of_false ?_ file
    rw [ensures_close_file found isOpen file]
    apply not_ensures (ensures_getset_handles .input "r" _)
    intro after handles givenBack
    obtain ⟨handle, there, stillOpen⟩ := givenBack.ready .output
    rw [givenBack.same, handles, modifyHandle_self, found, Option.map_some] at there
    rw [← Option.some.inj there] at stillOpen
    cases stillOpen

/-- `read_all` and `head` never close a file they have opened. Without one they read the old default input
and close the old default output. -/
theorem readFile_givesBack_iff (moves : ∀ unread, (fmt.read sys.stdio unread).2 = unread ↔ unread = [])
    (ready : Ready before) (file : Arg) :
    GivesBack (readFile sys fmt file) before ↔
      ∀ fname, file = .name fname → sys.fopen fname "r" = none ∧
        (before.handles[before.root .input]?).map Handle.unread = some [] ∧
        (before.handles[before.root .output]?).map Handle.type = some .stdf := by
  cases file with
  | name fname =>
    obtain ⟨i, source, readable⟩ := ready .input
    obtain ⟨o, found, isOpen⟩ := ready .output
    simp only [source, found, Option.map_some, Arg.name.injEq, forall_eq', Option.some.injEq]
    cases opened : sys.fopen fname "r" with
    | some unread =>
      exact iff_of_false (readFile_keeps sys ready opened) (fun all => absurd all.1 (Option.some_ne_none _))
    | none =>
      rcases eq_or_ne i.unread [] with drained | more
      · rw [readFile_closes_iff sys ready opened source readable ((moves _).mpr drained) found isOpen]
        simp only [drained, true_and]
      · have moved := mt (moves i.unread).mp more
        exact iff_of_false (readFile_takes sys ready opened source readable moved) (fun all => more all.2.1)
  | _ => exact iff_of_true ready.givenBack fun fname impossible => Arg.noConfusion impossible

end Reading

theorem all_moves (unread : Bytes) : (Format.all.read sys.stdio unread).2 = unread ↔ unread = [] := eq_comm

/-- Reading a line takes something away unless there is nothing. -/
theorem line_moves (unread : Bytes) : ((Format.line true).read sys.stdio unread).2 = unread ↔ unread = [] := by
  have length := readLine_length sys.stdio unread
  rw [Format.read]
  constructor
  · intro same
    by_contra more
    have shorter := length.2 more
    rw [same] at shorter
    exact absurd shorter (lt_irrefl _)
  · rintro rfl
    exact List.eq_nil_of_length_eq_zero (Nat.le_zero.mp length.1)

/-- `truncate` always gives back what it borrows, `fprintf` unless it opens a file or its format raises an
error with another stream in place, `read_all` and `head` if their argument is no name, or names a file that
cannot be opened while the default input is at its end and the default output is a standard file. -/
theorem helpers_give_back_iff (ready : Ready before) (file : Arg) (formatted : Option Bytes) :
    GivesBack (truncate sys file) before ∧
    (GivesBack (fprintf sys file formatted) before ↔
      (∀ fname, file = .name fname → sys.fopen fname "w" = none) ∧
      (formatted = none → ∀ h handle, file = .file h → before.handles[h]? = some handle → handle.isOpen →
        h = before.root .output)) ∧
    (GivesBack (read_all sys file) before ↔
      ∀ fname, file = .name fname → sys.fopen fname "r" = none ∧
        (before.handles[before.root .input]?).map Handle.unread = some [] ∧
        (before.handles[before.root .output]?).map Handle.type = some .stdf) ∧
    (GivesBack (head sys file) before ↔
      ∀ fname, file = .name fname → sys.fopen fname "r" = none ∧
        (before.handles[before.root .input]?).map Handle.unread = some [] ∧
        (before.handles[before.root .output]?).map Handle.type = some .stdf) := by
  refine ⟨?truncate, ?fprintf, ?read_all, ?head⟩
  case truncate => exact truncate_givesBack sys ready file
  case fprintf => exact fprintf_givesBack_iff sys ready file formatted
  case read_all => exact readFile_givesBack_iff sys (all_moves sys) ready file
  case head => exact readFile_givesBack_iff sys (line_moves sys) ready file

end Helpers

/-- The standard input and output as the default streams. -/
def standardStreams : State where
  handles := [⟨.stdf, true, [], []⟩, ⟨.stdf, true, [], []⟩]
  root
    | .input => 0
    | .output => 1

/-- Every file can be opened, and holds one byte. -/
def anyFile : System where
  fopen _ _ := some [97]
  stdio := ⟨8192, by decide⟩

theorem standardStreams_ready : Ready standardStreams := by
  intro id
  cases id
  · exact ⟨_, rfl, rfl⟩
  · exact ⟨_, rfl, rfl⟩

theorem helpers_give_back_standard :
    GivesBack (truncate anyFile (.name [102])) standardStreams :=
  (helpers_give_back_iff anyFile standardStreams_ready (.name [102]) none).1

/-- The file that `read_all` has read is still open. -/
theorem read_all_keeps :
    Ready standardStreams ∧ ¬ GivesBack (read_all anyFile (.name [102])) standardStreams := by
  constructor
  · exact standardStreams_ready
  · intro givesBack
    exact readFile_keeps anyFile standardStreams_ready rfl givesBack

end OmniaJit.Std
