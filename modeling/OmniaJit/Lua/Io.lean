import OmniaJit.Lua.FileLines
import OmniaJit.Machine.Program

/-! # The `io` library

The file handles and the two default streams of `lib_io.c`. `io.input` and `io.output` without an
argument only tell the default stream, and with one they replace it; `io.close` without an argument
closes the default output, whatever that is, unless it is one of the three standard files.
-/

namespace OmniaJit.Lua.Io

open OmniaJit.Machine

/-- `IOFILE_TYPE_FILE`, `IOFILE_TYPE_PIPE` and `IOFILE_TYPE_STDF`. -/
inductive FileType where
  | file | pipe | stdf
deriving DecidableEq

/-- A handle: whether its `fp` is there, the bytes that reading still delivers (none if it is not open
for reading), and what has been written to it. -/
structure Handle where
  type : FileType
  isOpen : Bool
  unread : Bytes
  written : Bytes := []
deriving DecidableEq

/-- The default streams, `GCROOT_IO_INPUT` and `GCROOT_IO_OUTPUT`. -/
inductive Root where
  | input | output
deriving DecidableEq

/-- All handles there have been, and which of them are the default streams. -/
structure State where
  handles : List Handle
  root : Root → ℕ

/-- A Lua error that leaves a function of the library, or the end of the program. -/
inductive Error where
  /-- bad argument -/
  | argument
  /-- attempt to use a closed file -/
  | closed
  /-- the file cannot be opened -/
  | cannotOpen
  /-- standard file is closed -/
  | standardClosed
  /-- an error of `string.format` -/
  | format
  /-- `fclose` of a null pointer -/
  | crash
deriving DecidableEq

abbrev M := Program Error State

/-- An argument: nil, a file handle, a string (or number), or another value. -/
inductive Arg where
  | nil
  | file (id : ℕ)
  | name (fname : Bytes)
  | other
deriving DecidableEq

/-- What the library is given: `fopen` for a name and a mode, with the bytes that can be read, and the
buffer size. -/
structure System where
  fopen : Bytes → String → Option Bytes
  stdio : Stdio

def State.setRoot (s : State) (id : Root) (h : ℕ) : State :=
  { s with root := Function.update s.root id h }

def State.modifyHandle (s : State) (h : ℕ) (f : Handle → Handle) : State :=
  { s with handles := s.handles.modify h f }

/-- One more handle, of the type `IOFILE_TYPE_FILE`. -/
def State.create (s : State) (unread : Bytes) : State :=
  { s with handles := s.handles ++ [{ type := .file, isOpen := true, unread := unread }] }

section Fields

variable (s : State) (id : Root) (h : ℕ) (f : Handle → Handle) (unread : Bytes)

@[simp] theorem setRoot_handles : (s.setRoot id h).handles = s.handles := rfl

@[simp] theorem setRoot_root_self : (s.setRoot id h).root id = h := Function.update_self ..

@[simp] theorem setRoot_root_of_ne {id' : Root} (other : id' ≠ id) : (s.setRoot id h).root id' = s.root id' :=
  Function.update_of_ne other ..

@[simp] theorem modifyHandle_root : (s.modifyHandle h f).root = s.root := rfl

@[simp] theorem create_root : (s.create unread).root = s.root := rfl

theorem modifyHandle_self : (s.modifyHandle h f).handles[h]? = s.handles[h]?.map f := by
  simp [State.modifyHandle]

theorem modifyHandle_of_ne {h' : ℕ} (other : h' ≠ h) : (s.modifyHandle h f).handles[h']? = s.handles[h']? := by
  simp [State.modifyHandle, other.symm]

theorem modifyHandle_fixed {handle : Handle} (found : s.handles[h]? = some handle) (fixed : f handle = handle) :
    s.modifyHandle h f = s := by
  have same : s.handles.modify h f = s.handles := by
    apply List.ext_getElem?
    intro h'
    rcases eq_or_ne h' h with rfl | other
    · rw [List.getElem?_modify_eq, found]
      exact congrArg some fixed
    · rw [List.getElem?_modify_ne _ _ other.symm]
  rw [State.modifyHandle, same]

@[simp] theorem modifyHandle_length : (s.modifyHandle h f).handles.length = s.handles.length :=
  List.length_modify ..

theorem create_new : (s.create unread).handles[s.handles.length]? =
    some { type := .file, isOpen := true, unread := unread } := List.getElem?_concat_length

theorem create_old {h' : ℕ} (old : h' < s.handles.length) : (s.create unread).handles[h']? = s.handles[h']? :=
  List.getElem?_append_left old

end Fields

section Functions

variable (sys : System)

/-- `io_tofile` -/
def io_tofile (h : ℕ) : M Unit := do
  match (← get).handles[h]? with
  | none => throw .argument
  | some handle => if handle.isOpen then pure () else throw .closed

/-- `io_stdfile`, with the handle it belongs to. -/
def io_stdfile (id : Root) : M (ℕ × Handle) := do
  let s ← get
  match s.handles[s.root id]? with
  | none => throw .standardClosed
  | some handle => if handle.isOpen then pure (s.root id, handle) else throw .standardClosed

/-- `io_file_new`, for a file that has been opened. -/
def io_file_new (unread : Bytes) : M ℕ := do
  let s ← get
  modify (·.create unread)
  pure s.handles.length

/-- `io_file_open`, which raises an error if the file cannot be opened. -/
def io_file_open (fname : Bytes) (mode : String) : M ℕ :=
  match sys.fopen fname mode with
  | none => throw .cannotOpen
  | some unread => io_file_new unread

/-- `io_std_getset` -/
def io_std_getset (id : Root) (mode : String) : Arg → M ℕ
  | .nil => do return (← get).root id
  | .file h => do
    io_tofile h
    modify (·.setRoot id h)
    return h
  | .name fname => do
    let h ← io_file_open sys fname mode
    modify (·.setRoot id h)
    return h
  | .other => throw .argument

def io_input : Arg → M ℕ := io_std_getset sys .input "r"

def io_output : Arg → M ℕ := io_std_getset sys .output "w"

/-- `io.open(fname, mode)`, which returns nil if the file cannot be opened. -/
def io_open (mode : String) : Arg → M (Option ℕ)
  | .name fname =>
    match sys.fopen fname mode with
    | none => return none
    | some unread => return some (← io_file_new unread)
  | _ => throw .argument

/-- `io_file_close` -/
def io_file_close (h : ℕ) : M Unit := do
  match (← get).handles[h]? with
  | none => throw .crash
  | some handle =>
    if handle.type = .stdf then pure ()
    else if handle.isOpen then modify (·.modifyHandle h fun handle => { handle with isOpen := false })
    else throw .crash

/-- `io.close()` -/
def io_close : M Unit := do io_file_close ((← get).root .output)

/-- `io.read(fmt)` -/
def io_read (fmt : Format) : M (Option Bytes) := do
  let (h, handle) ← io_stdfile .input
  let (result, rest) := fmt.read sys.stdio handle.unread
  modify (·.modifyHandle h fun handle => { handle with unread := rest })
  return result

/-- `io.write(s)` -/
def io_write (s : Bytes) : M Unit := do
  let (h, _) ← io_stdfile .output
  modify (·.modifyHandle h fun handle => { handle with written := handle.written ++ s })

end Functions

section Rules

variable {sys : System} {s : State} {h : ℕ} {handle : Handle} {exit : Error → State → Prop}

theorem ensures_getset_nil {post : ℕ → State → Prop} (id : Root) (mode : String) :
    Program.Ensures (io_std_getset sys id mode .nil) s post exit ↔ post (s.root id) s := Iff.rfl

theorem ensures_getset_file {post : ℕ → State → Prop} (found : s.handles[h]? = some handle)
    (isOpen : handle.isOpen) (id : Root) (mode : String) :
    Program.Ensures (io_std_getset sys id mode (.file h)) s post exit ↔ post h (s.setRoot id h) := by
  simp only [io_std_getset, io_tofile, Program.ensures_bind, Program.ensures_get, found, isOpen, if_true,
    Program.ensures_pure, Program.ensures_modify]

theorem ensures_getset_closed {post : ℕ → State → Prop} (found : s.handles[h]? = some handle)
    (closed : ¬ handle.isOpen) (id : Root) (mode : String) :
    Program.Ensures (io_std_getset sys id mode (.file h)) s post exit ↔ exit .closed s := by
  simp only [io_std_getset, io_tofile, Program.ensures_bind, Program.ensures_get, found, closed, if_false,
    Program.ensures_throw, Bool.false_eq_true]

theorem ensures_getset_missing {post : ℕ → State → Prop} (missing : s.handles[h]? = none) (id : Root)
    (mode : String) :
    Program.Ensures (io_std_getset sys id mode (.file h)) s post exit ↔ exit .argument s := by
  simp only [io_std_getset, io_tofile, Program.ensures_bind, Program.ensures_get, missing,
    Program.ensures_throw]

theorem ensures_getset_opened {post : ℕ → State → Prop} {fname : Bytes} {mode : String} {unread : Bytes}
    (opened : sys.fopen fname mode = some unread) (id : Root) :
    Program.Ensures (io_std_getset sys id mode (.name fname)) s post exit ↔
      post s.handles.length ((s.create unread).setRoot id s.handles.length) := by
  simp only [io_std_getset, io_file_open, opened, io_file_new, Program.ensures_bind, Program.ensures_get,
    Program.ensures_pure, Program.ensures_modify]

theorem ensures_getset_failed {post : ℕ → State → Prop} {fname : Bytes} {mode : String}
    (failed : sys.fopen fname mode = none) (id : Root) :
    Program.Ensures (io_std_getset sys id mode (.name fname)) s post exit ↔ exit .cannotOpen s := by
  simp only [io_std_getset, io_file_open, failed, Program.ensures_bind, Program.ensures_throw]

theorem ensures_open_opened {post : Option ℕ → State → Prop} {fname : Bytes} {mode : String} {unread : Bytes}
    (opened : sys.fopen fname mode = some unread) :
    Program.Ensures (io_open sys mode (.name fname)) s post exit ↔
      post (some s.handles.length) (s.create unread) := by
  simp only [io_open, opened, io_file_new, Program.ensures_bind, Program.ensures_get, Program.ensures_pure,
    Program.ensures_modify]

theorem ensures_open_failed {post : Option ℕ → State → Prop} {fname : Bytes} {mode : String}
    (failed : sys.fopen fname mode = none) :
    Program.Ensures (io_open sys mode (.name fname)) s post exit ↔ post none s := by
  simp only [io_open, failed, Program.ensures_pure]

theorem ensures_read {post : Option Bytes → State → Prop} (fmt : Format)
    (found : s.handles[s.root .input]? = some handle) (isOpen : handle.isOpen) :
    Program.Ensures (io_read sys fmt) s post exit ↔
      post (fmt.read sys.stdio handle.unread).1 (s.modifyHandle (s.root .input) fun handle' =>
        { handle' with unread := (fmt.read sys.stdio handle.unread).2 }) := by
  simp only [io_read, io_stdfile, Program.ensures_bind, Program.ensures_get, found, isOpen, if_true,
    Program.ensures_pure, Program.ensures_modify]

theorem ensures_write {post : Unit → State → Prop} (text : Bytes)
    (found : s.handles[s.root .output]? = some handle) (isOpen : handle.isOpen) :
    Program.Ensures (io_write text) s post exit ↔
      post () (s.modifyHandle (s.root .output) fun handle =>
        { handle with written := handle.written ++ text }) := by
  simp only [io_write, io_stdfile, Program.ensures_bind, Program.ensures_get, found, isOpen, if_true,
    Program.ensures_pure, Program.ensures_modify]

theorem ensures_close_stdf {post : Unit → State → Prop} (found : s.handles[s.root .output]? = some handle)
    (standard : handle.type = .stdf) : Program.Ensures io_close s post exit ↔ post () s := by
  simp only [io_close, io_file_close, Program.ensures_bind, Program.ensures_get, found, standard, if_true,
    Program.ensures_pure]

theorem ensures_close_file {post : Unit → State → Prop} (found : s.handles[s.root .output]? = some handle)
    (isOpen : handle.isOpen) (other : handle.type ≠ .stdf) :
    Program.Ensures io_close s post exit ↔
      post () (s.modifyHandle (s.root .output) fun handle => { handle with isOpen := false }) := by
  simp only [io_close, io_file_close, Program.ensures_bind, Program.ensures_get, found, isOpen, other, if_false,
    if_true, Program.ensures_modify]

end Rules

end OmniaJit.Lua.Io
