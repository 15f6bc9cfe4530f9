import OmniaJit.Bin.DottedName
import OmniaJit.Bin.Luastatic
import OmniaJit.Data.Assignment

/-! # The bundle and its loader

`bin/luastatic.lua` writes its arguments into the text of a C program, whose `lua_loader` looks a module up in
the bundle; the command line for the compiler is not part of that text. The key of a file comes from its path,
the key of a lookup from the name that is required, in two programs. Here they meet: every module is found
under its own name.
-/

namespace OmniaJit.Bin

open OmniaJit.Lua OmniaJit.Lua.LibString OmniaJit.Data

/-- The ends of a run without a C file. -/
inductive Failure where
  | exit (stderr : Bytes)
  | usage
  | raised (e : PatternError)
deriving DecidableEq

/-- An error of the string library ends the run. -/
def raising {α : Type} (result : Except PatternError α) : Except Failure α := result.mapError .raised

structure Info where
  path : Bytes
  basename_noextension : Bytes
  dotpath_noextension : Bytes
deriving DecidableEq

structure ModInfo where
  dotpath_underscore : Bytes
  dotpath_noextension : Bytes
deriving DecidableEq

/-- What the argument loop collects. -/
structure Arguments where
  lua_source_files : List Info := []
  module_library_files : List ModInfo := []
  module_link_libraries : List Bytes := []
  dep_library_files : List Bytes := []
  other_arguments : List Bytes := []
deriving DecidableEq

def is_source_file (extension : Option Bytes) : Bool :=
  extension = some (ascii "lua") || extension = some (ascii "luac")

def is_binary_library (extension : Option Bytes) : Bool :=
  extension = some (ascii "o") || extension = some (ascii "a") || extension = some (ascii "so") ||
    extension = some (ascii "dylib")

/-- The modules in the output of `nm`. A library with `luaL_newstate` is the interpreter. -/
def library_modules (nmout : Bytes) : Except PatternError (List ModInfo) := do
  match ← find nmout (ascii "T _?luaL_newstate") 1 false with
  | some _ => return []
  | none =>
    (← gmatch nmout (ascii "[^dD] _?luaopen_([%a%p%d]+)")).mapM fun captures => do
      let luaopen := match captures.head? with
        | some (.text luaopen) => luaopen
        | _ => []
      let (dotpath, _) ← gsub luaopen (ascii "_") (.string (ascii ".")) none
      return { dotpath_underscore := luaopen, dotpath_noextension := dotpath }

section ArgumentLoop

-- The contents of the files there are, and what `nm` writes about one if it succeeds.
variable (files nm : Bytes → Option Bytes)

def library (a : Arguments) (path : Bytes) : Except Failure Arguments := do
  let some nmout := nm path | throw (.exit (ascii "nm not found\n"))
  let modules ← raising (library_modules nmout)
  let a := { a with module_library_files := a.module_library_files ++ modules }
  if modules ≠ [] then return { a with module_link_libraries := a.module_link_libraries ++ [path] }
  else return { a with dep_library_files := a.dep_library_files ++ [path] }

/-- One argument; `i` is its place. -/
def argument (a : Arguments) (i : ℕ) (name : Bytes) : Except Failure Arguments := do
  let extension ← raising (extension name)
  if i = 1 ∨ is_source_file extension ∨ is_binary_library extension then
    if (files name).isNone then throw (.exit (ascii "file does not exist: " ++ name ++ ascii "\n"))
    let basename ← raising (basename name)
    let basename_noextension ← raising (noextension basename)
    let dotpath_noextension ← raising (dotpath_noextension name)
    let info := ⟨name, basename_noextension, dotpath_noextension⟩
    if i = 1 ∨ is_source_file extension then
      return { a with lua_source_files := a.lua_source_files ++ [info] }
    else library nm a name
  else return { a with other_arguments := a.other_arguments ++ [name] }

/-- The loop, with the arguments from the `i`-th on. -/
def argumentsFrom (a : Arguments) : ℕ → List Bytes → Except Failure Arguments
  | _, [] => .ok a
  | i, name :: rest => do argumentsFrom (← argument files nm a i name) (i + 1) rest

def arguments (arg : List Bytes) : Except Failure Arguments := do
  let a ← argumentsFrom files nm {} 1 arg
  if a.lua_source_files = [] then throw .usage else return a

end ArgumentLoop

section Generator

/-- What a C string literal with this text between its quotes gives to a function that takes a string,
unless the text ends the literal or has an escape. -/
def cString (text : Bytes) : Option Bytes :=
  if text.any fun c => c = '"'.toUInt8 || c = '\\'.toUInt8 || c = '\n'.toUInt8 then none
  else some (cstring text)

/-- A Lua string literal, in the same way. -/
def luaString (text : Bytes) : Option Bytes :=
  if text.any fun c => c = '"'.toUInt8 || c = '\\'.toUInt8 || c = '\n'.toUInt8 || c = '\r'.toUInt8 then none
  else some text

/-- A name that can follow `luaopen_` in C. -/
def cIdentifier (name : Bytes) : Bool := name.all fun c => lj_char_isa c LJ_CHAR_ALNUM || c = '_'.toUInt8

inductive Module where
  | string (str : Bytes)
  | function (luaopen : Bytes)
deriving DecidableEq

/-- The generated program: the bundle, the name in `lua_loader("%s")` and the name of the loader's chunk. -/
structure Program where
  lua_bundle : Bytes → Option Module
  main : Bytes
  chunkname : Bytes

variable (io : Stdio) (files : Bytes → Option Bytes)

/-- The array of a file. -/
def sourceText (path : Bytes) : Option Bytes :=
  (files path).bind fun content => decode (outLuaSource io content)

def sourceEntry (file : Info) : Option (Bytes × Module) := do
  let str ← sourceText io files file.path
  return (← cString file.dotpath_noextension, .string str)

def libraryEntry (library : ModInfo) : Option (Bytes × Module) := do
  if cIdentifier library.dotpath_underscore then
    return (← cString library.dotpath_noextension, .function library.dotpath_underscore)
  else none

/-- The C program, if its text is one. -/
def generate (a : Arguments) : Option Program := do
  let mainlua ← a.lua_source_files.head?
  let main ← luaString mainlua.dotpath_noextension
  let chunkname ← cString mainlua.basename_noextension
  let sources ← a.lua_source_files.mapM (sourceEntry io files)
  let libraries ← a.module_library_files.mapM libraryEntry
  return { lua_bundle := assign (fun _ => none) (sources ++ libraries), main := main, chunkname := chunkname }

/-- The program that the C text of `luastatic.lua` is, if a text is written and is one. -/
def luastatic (nm : Bytes → Option Bytes) (arg : List Bytes) : Option Program :=
  (arguments files nm arg).toOption.bind (generate io files)

end Generator

section LuaLoader

/-- What `lua_loader` returns or raises. -/
inductive Loaded (Chunk : Type) where
  | chunk (chunk : Chunk)
  | function (luaopen : Bytes)
  | message (text : Bytes)
  | raised (text : Bytes)
deriving DecidableEq

variable {Chunk : Type} (load : Bytes → Bytes → Except Bytes Chunk)

/-- `load_string(mod, name)` and what is made of its results. -/
def load_string (mod name : Bytes) : Loaded Chunk :=
  match load mod name with
  | .ok chunk => .chunk chunk
  | .error errstr =>
    .raised (ascii "error loading module '" ++ name ++ ascii "' from luastatic bundle:\n\t" ++ errstr)

def lua_loader (lua_bundle : Bytes → Option Module) (name : Bytes) : Except PatternError (Loaded Chunk) := do
  let (name, _) ← gsub name (ascii "/") (.string (ascii ".")) none
  match (lua_bundle name).or (lua_bundle (name ++ ascii ".init")) with
  | some (.string mod) => return load_string load mod name
  | some (.function luaopen) => return .function luaopen
  | none => return .message (ascii "\n\tno module '" ++ name ++ ascii "' in luastatic bundle")

end LuaLoader

section Arguments

/-- A source file that is not the main script. -/
def IsLua (name : Bytes) : Prop := ascii ".lua" <:+ name ∨ ascii ".luac" <:+ name

instance (name : Bytes) : Decidable (IsLua name) := inferInstanceAs (Decidable (_ ∨ _))

/-- What is kept of a source file. -/
def sourceInfo (path : Bytes) : Info := ⟨path, stem (lastPart path), dottedName path⟩

theorem IsLua.is_source_file {name : Bytes} (lua : IsLua name) :
    ∃ found, extension name = .ok found ∧ is_source_file found := by
  rcases lua with ⟨front, rfl⟩ | ⟨front, rfl⟩
  · exact ⟨_, @extension_found front (ascii "lua") (by decide +kernel) (by decide +kernel), rfl⟩
  · exact ⟨_, @extension_found front (ascii "luac") (by decide +kernel) (by decide +kernel), rfl⟩

variable {files nm : Bytes → Option Bytes} {a : Arguments} {i : ℕ} {name : Bytes}

theorem argument_source {found : Option Bytes} (matched : extension name = .ok found)
    (source : i = 1 ∨ is_source_file found) : argument files nm a i name =
      if (files name).isSome then .ok { a with lua_source_files := a.lua_source_files ++ [sourceInfo name] }
      else .error (.exit (ascii "file does not exist: " ++ name ++ ascii "\n")) := by
  have entered : i = 1 ∨ is_source_file found ∨ is_binary_library found := source.elim .inl (.inr ∘ .inl)
  rw [argument, matched]
  simp only [raising, Except.mapError, bind, Except.bind, basename_eq, noextension_eq, dotpath_noextension_eq,
    if_pos entered, if_pos source]
  cases files name <;> rfl

/-- The source files behind the main script. -/
theorem argumentsFrom_lua {rest : List Bytes} (lua : ∀ name ∈ rest, IsLua name) :
    (argumentsFrom files nm a i rest).toOption =
      if ∀ name ∈ rest, (files name).isSome then
        some { a with lua_source_files := a.lua_source_files ++ rest.map sourceInfo }
      else none := by
  induction rest generalizing a i with
  | nil => simp [argumentsFrom, Except.toOption]
  | cons name rest ih =>
    obtain ⟨found, matched, source⟩ := (lua name (List.mem_cons_self ..)).is_source_file
    rw [argumentsFrom, argument_source matched (.inr source)]
    simp only [List.forall_mem_cons]
    cases files name with
    | none => rfl
    | some content =>
      have later := @ih { a with lua_source_files := a.lua_source_files ++ [sourceInfo name] } (i + 1)
        fun name member => lua name (List.mem_cons_of_mem _ member)
      rw [List.append_assoc] at later
      simp only [Option.isSome_some, true_and]
      exact later

theorem arguments_lua {main : Bytes} {rest : List Bytes} (lua : ∀ name ∈ rest, IsLua name) :
    (arguments files nm (main :: rest)).toOption =
      if ∀ name ∈ main :: rest, (files name).isSome then
        some { lua_source_files := (main :: rest).map sourceInfo }
      else none := by
  obtain ⟨found, matched⟩ := extension_ok main
  have rest_files := @argumentsFrom_lua files nm { lua_source_files := [sourceInfo main] } 2 rest lua
  rw [arguments, argumentsFrom, argument_source matched (.inl rfl)]
  simp only [List.forall_mem_cons]
  cases files main with
  | none => rfl
  | some content =>
    simp only [Option.isSome_some, true_and]
    change (argumentsFrom files nm { lua_source_files := [sourceInfo main] } 2 rest >>= fun a =>
      if a.lua_source_files = [] then Except.error Failure.usage else .ok a).toOption = _
    cases result : argumentsFrom files nm { lua_source_files := [sourceInfo main] } 2 rest with
    | error e =>
      rw [result] at rest_files
      exact rest_files
    | ok a =>
      rw [result] at rest_files
      have collected : a.lua_source_files ≠ [] := by
        split_ifs at rest_files
        · cases rest_files
          exact List.cons_ne_nil _ _
        · cases rest_files
      change (if a.lua_source_files = [] then Except.error Failure.usage else .ok a).toOption = _
      rw [if_neg collected]
      exact rest_files

end Arguments

section Literals

/-- No quotes and no control characters. -/
def Plain (name : Bytes) : Prop := ∀ c ∈ name, c ≠ '"'.toUInt8 ∧ 0x20 ≤ c ∧ c ≠ 0x7f

instance (name : Bytes) : Decidable (Plain name) := inferInstanceAs (Decidable (∀ c ∈ name, _))

variable {text : Bytes}

/-- A base name or a dotted name without quotes and control characters has no special character. -/
theorem Plain.ordinary {c : UInt8} (plain : Plain text) (unseparated : ∀ c ∈ text, ¬ isSeparator c)
    (member : c ∈ text) :
    c ≠ '"'.toUInt8 ∧ c ≠ '\\'.toUInt8 ∧ c ≠ '\n'.toUInt8 ∧ c ≠ '\r'.toUInt8 ∧ c ≠ 0 := by
  obtain ⟨quote, printable, -⟩ := plain c member
  refine ⟨quote, ?_, ?_, ?_, ?_⟩
  · rintro rfl
    exact unseparated _ member rfl
  all_goals
    rintro rfl
    exact absurd printable (by decide)

theorem luaString_plain (plain : Plain text) (unseparated : ∀ c ∈ text, ¬ isSeparator c) :
    luaString text = some text := by
  rw [luaString, if_neg]
  intro special
  obtain ⟨c, member, special⟩ := List.any_eq_true.mp special
  have ordinary := plain.ordinary unseparated member
  simp [ordinary] at special

theorem cString_plain (plain : Plain text) (unseparated : ∀ c ∈ text, ¬ isSeparator c) :
    cString text = some text := by
  have whole : cstring text = text := by
    apply List.takeWhile_eq_self_iff.mpr
    intro c member
    simpa using (plain.ordinary unseparated member).2.2.2.2
  rw [cString, if_neg, whole]
  intro special
  obtain ⟨c, member, special⟩ := List.any_eq_true.mp special
  have ordinary := plain.ordinary unseparated member
  simp [ordinary] at special

end Literals

section Lookup

/-- The arguments of a program that is bundled from Lua files alone: the main script and the others, with
names of their own that can stand between quotes. -/
structure LuaArguments (main : Bytes) (rest : List Bytes) : Prop where
  lua : ∀ path ∈ rest, IsLua path
  distinct : ((main :: rest).map dottedName).Nodup
  plain : ∀ path ∈ main :: rest, Plain (dottedName path)
  base : Plain (stem (lastPart main))

variable {io : Stdio} {files nm : Bytes → Option Bytes} {path content : Bytes}

theorem sourceEntry_info (plain : Plain (dottedName path)) : sourceEntry io files (sourceInfo path) =
    (sourceText io files path).map fun str => (dottedName path, .string str) := by
  rw [sourceEntry, sourceInfo, cString_plain plain dottedName_plain]
  cases sourceText io files path <;> rfl

/-- There is an array for every file that holds more than a byte order mark. -/
theorem sourceText_eq (found : files path = some content) :
    sourceText io files path = if content = byteOrderMark then none else some (embedded io content) := by
  rw [sourceText, found, Option.bind_some, decode_outLuaSource]

theorem sourceEntry_isSome_iff (plain : Plain (dottedName path)) :
    (sourceEntry io files (sourceInfo path)).isSome ↔
      ∃ content, files path = some content ∧ content ≠ byteOrderMark := by
  rw [sourceEntry_info plain, Option.isSome_map]
  cases found : files path with
  | none => simp [sourceText, found]
  | some content =>
    rw [sourceText_eq found]
    split_ifs with bare <;> simp [bare]

/-- The entries of the bundle, one for each file. -/
def sourceEntries (io : Stdio) (files : Bytes → Option Bytes) (paths : List Bytes) :
    Option (List (Bytes × Module)) :=
  (paths.map sourceInfo).mapM (sourceEntry io files)

/-- The program with these entries. -/
def programOf (main : Bytes) (sources : List (Bytes × Module)) : Program where
  lua_bundle := assign (fun _ => none) sources
  main := dottedName main
  chunkname := stem (lastPart main)

variable {main : Bytes} {rest : List Bytes} (args : LuaArguments main rest)
include args

theorem generate_sources : generate io files { lua_source_files := (main :: rest).map sourceInfo } =
    (sourceEntries io files (main :: rest)).map (programOf main) := by
  have mainName := luaString_plain (args.plain main (List.mem_cons_self ..)) dottedName_plain
  have chunk := cString_plain args.base fun c member => lastPart_plain c ((stem_initial _).subset member)
  rw [generate, sourceEntries]
  simp only [List.map_cons, List.head?_cons, bind, Option.bind, sourceInfo, mainName, chunk]
  generalize List.mapM (sourceEntry io files) _ = sources
  cases sources with
  | none => rfl
  | some sources => simp [List.mapM_nil, programOf]

theorem sourceEntries_isSome_iff : (sourceEntries io files (main :: rest)).isSome ↔
    ∀ path ∈ main :: rest, ∃ content, files path = some content ∧ content ≠ byteOrderMark := by
  rw [sourceEntries, mapM_isSome_iff, List.forall_mem_map]
  exact forall₂_congr fun path member => sourceEntry_isSome_iff (args.plain path member)

/-- There is a program if every file has an array. -/
theorem luastatic_sources : luastatic io files nm (main :: rest) =
    (sourceEntries io files (main :: rest)).map (programOf main) := by
  rw [luastatic, arguments_lua args.lua]
  split_ifs with exist
  · exact generate_sources args
  · have incomplete : ¬ (sourceEntries io files (main :: rest)).isSome := by
      rw [sourceEntries_isSome_iff args]
      intro complete
      refine exist fun path member => ?_
      obtain ⟨content, found, -⟩ := complete path member
      rw [found]
      rfl
    rw [Option.not_isSome_iff_eq_none.mp incomplete]
    rfl

theorem luastatic_isSome_iff : (luastatic io files nm (main :: rest)).isSome ↔
    ∀ path ∈ main :: rest, ∃ content, files path = some content ∧ content ≠ byteOrderMark := by
  rw [luastatic_sources args, Option.isSome_map, sourceEntries_isSome_iff args]

theorem luastatic_eq_some {program : Program} (result : luastatic io files nm (main :: rest) = some program) :
    ∃ sources, sourceEntries io files (main :: rest) = some sources ∧ program = programOf main sources := by
  rw [luastatic_sources args] at result
  obtain ⟨sources, done, rfl⟩ := Option.map_eq_some_iff.mp result
  exact ⟨sources, done, rfl⟩

theorem sourceEntry_keyed : ∀ info ∈ (main :: rest).map sourceInfo, ∀ entry,
    sourceEntry io files info = some entry → entry.1 = info.dotpath_noextension := by
  rw [List.forall_mem_map]
  intro path member entry value
  rw [sourceEntry_info (args.plain path member)] at value
  obtain ⟨str, -, rfl⟩ := Option.map_eq_some_iff.mp value
  rfl

variable {sources : List (Bytes × Module)} (done : sourceEntries io files (main :: rest) = some sources)
include done

/-- The module of each file is under its dotted name. -/
theorem bundle_own (member : path ∈ main :: rest) (found : files path = some content) :
    (programOf main sources).lua_bundle (dottedName path) = some (.string (embedded io content)) := by
  have info := List.mem_map_of_mem (f := sourceInfo) member
  have entry : sourceEntry io files (sourceInfo path) =
      some (dottedName path, .string (embedded io content)) := by
    obtain ⟨content', found', more⟩ :=
      (sourceEntries_isSome_iff args).mp (Option.isSome_of_eq_some done) path member
    obtain rfl := Option.some.inj (found.symm.trans found')
    rw [sourceEntry_info (args.plain path member), sourceText_eq found, if_neg more]
    rfl
  apply assign_mapM_of_mem (sourceEntry_keyed args) done _ info entry
  rw [List.map_map]
  exact args.distinct

theorem bundle_other {key : Bytes} (other : ∀ path ∈ main :: rest, dottedName path ≠ key) :
    (programOf main sources).lua_bundle key = none := by
  apply assign_mapM_of_notMem (sourceEntry_keyed args) done
  rw [List.forall_mem_map]
  exact other

end Lookup

section Names

/-- The name with dots for its slashes. -/
def dots (name : Bytes) : Bytes := name.map fun c => if '/'.toUInt8 = c then dot else c

theorem gsub_slash (name : Bytes) :
    ∃ count, gsub name (ascii "/") (.string (ascii ".")) none = .ok (dots name, count) := by
  have one : MatchesOne (ascii "/") fun x => '/'.toUInt8 = x := @matchesOne_item '/'.toUInt8 [] (by decide) rfl
  have mapped := gsub_map one (by decide) (by decide) dot (by decide) name
  simp only [decide_eq_true_eq] at mapped
  exact ⟨_, mapped⟩

/-- A dotted name has no slashes. -/
theorem dots_dottedName (path : Bytes) : dots (dottedName path) = dottedName path := by
  have unchanged : ∀ c ∈ dottedName path, (if '/'.toUInt8 = c then dot else c) = id c := by
    intro c member
    rw [if_neg]
    · rfl
    · rintro rfl
      exact dottedName_plain _ member rfl
  rw [dots, List.map_congr_left unchanged, List.map_id]

theorem lua_loader_eq {Chunk : Type} {load : Bytes → Bytes → Except Bytes Chunk}
    {lua_bundle : Bytes → Option Module} {name : Bytes} : lua_loader load lua_bundle name = .ok
      (match (lua_bundle (dots name)).or (lua_bundle (dots name ++ ascii ".init")) with
        | some (.string mod) => load_string load mod (dots name)
        | some (.function luaopen) => .function luaopen
        | none => .message (ascii "\n\tno module '" ++ dots name ++ ascii "' in luastatic bundle")) := by
  obtain ⟨count, replaced⟩ := gsub_slash name
  rw [lua_loader, replaced]
  simp only [bind, Except.bind]
  rcases (lua_bundle (dots name)).or (lua_bundle (dots name ++ ascii ".init")) with _ | mod | luaopen <;> rfl

end Names

/-- How a program finds the modules of its files, the first of which is the main script. -/
structure FindsModules {Chunk : Type} (load : Bytes → Bytes → Except Bytes Chunk) (io : Stdio)
    (files : Bytes → Option Bytes) (main : Bytes) (rest : List Bytes) (program : Program) : Prop where
  /-- A name finds the file with that dotted name. -/
  own : ∀ path ∈ main :: rest, ∀ content, files path = some content → ∀ name, dottedName path = dots name →
    lua_loader load program.lua_bundle name = .ok (load_string load (embedded io content) (dots name))
  /-- Without one it finds the `init` file. -/
  init : ∀ path ∈ main :: rest, ∀ content, files path = some content → ∀ name,
    (∀ other ∈ main :: rest, dottedName other ≠ dots name) → dottedName path = dots name ++ ascii ".init" →
      lua_loader load program.lua_bundle name = .ok (load_string load (embedded io content) (dots name))
  /-- Without that one too it finds nothing. -/
  missing : ∀ name,
    (∀ path ∈ main :: rest, dottedName path ≠ dots name ∧ dottedName path ≠ dots name ++ ascii ".init") →
      lua_loader load program.lua_bundle name =
        .ok (.message (ascii "\n\tno module '" ++ dots name ++ ascii "' in luastatic bundle"))
  /-- The chunk that is run is the one of the main script. -/
  run : ∀ content, files main = some content →
    lua_loader load program.lua_bundle program.main =
      .ok (load_string load (embedded io content) (dottedName main))

/-- The program of a C text finds every module under its own name. -/
theorem luastatic_finds {Chunk : Type} (load : Bytes → Bytes → Except Bytes Chunk) {io : Stdio}
    {files nm : Bytes → Option Bytes} {main : Bytes} {rest : List Bytes} (args : LuaArguments main rest)
    {program : Program} (result : luastatic io files nm (main :: rest) = some program) :
    FindsModules load io files main rest program := by
  obtain ⟨sources, done, rfl⟩ := luastatic_eq_some args result
  constructor
  · intro path member content found name same
    rw [lua_loader_eq, ← same, bundle_own args done member found]
    rfl
  · intro path member content found name other same
    rw [lua_loader_eq, bundle_other args done other, ← same, bundle_own args done member found]
    rfl
  · intro name other
    rw [lua_loader_eq, bundle_other args done fun path member => (other path member).1,
      bundle_other args done fun path member => (other path member).2]
    rfl
  · intro content found
    have main_key : (programOf main sources).main = dottedName main := rfl
    rw [lua_loader_eq, main_key, dots_dottedName, bundle_own args done (List.mem_cons_self ..) found]
    rfl

/-- A package is found by its `init` file. -/
theorem luastatic_finds_init : ∃ program,
    luastatic ⟨8192, by decide⟩ (fun _ => some (ascii "return 1")) (fun _ => none)
        [ascii "m.lua", ascii "./a/init.lua"] = some program ∧
      lua_loader (fun text _ => .ok text) program.lua_bundle (ascii "a") = .ok (.chunk (ascii "return 1")) := by
  have args : LuaArguments (ascii "m.lua") [ascii "./a/init.lua"] :=
    ⟨by decide +kernel, by decide +kernel, by decide +kernel, by decide +kernel⟩
  obtain ⟨program, result⟩ := Option.isSome_iff_exists.mp
    ((luastatic_isSome_iff args).mpr fun _ _ => ⟨ascii "return 1", rfl, by decide +kernel⟩)
  refine ⟨program, result, ?_⟩
  apply (luastatic_finds (fun text _ => .ok text) args result).init (ascii "./a/init.lua") (by decide +kernel) _ rfl
    (ascii "a")
  · decide +kernel
  · decide +kernel

/-- The dotted path without its last dot and what is behind it. -/
def shortened (path : Bytes) : Bytes :=
  match lastSplit (· = dot) (dottedPath path) with
  | some (front, _) => front
  | none => dottedPath path

/-- Nothing is left of the name of a file `.lua`, and it is not found under that name. A main script whose
base name has a quote gives no program at all. -/
theorem shortened_lost : ([ascii "m.lua", ascii ".lua"].map shortened).Nodup ∧
    (∀ path ∈ [ascii "m.lua", ascii ".lua", ascii "a.b/\""], Plain (shortened path)) ∧
    shortened (ascii ".lua") = [] ∧
    (∃ program,
      luastatic ⟨8192, by decide⟩ (fun _ => some (ascii "return 1")) (fun _ => none)
          [ascii "m.lua", ascii ".lua"] = some program ∧
        lua_loader (fun text _ => .ok text) program.lua_bundle [] =
          .ok (.message (ascii "\n\tno module '' in luastatic bundle"))) ∧
    luastatic ⟨8192, by decide⟩ (fun _ => some (ascii "return 1")) (fun _ => none) [ascii "a.b/\""] = none := by
  refine ⟨by decide +kernel, by decide +kernel, by decide +kernel, ?_, ?_⟩
  · have args : LuaArguments (ascii "m.lua") [ascii ".lua"] :=
      ⟨by decide +kernel, by decide +kernel, by decide +kernel, by decide +kernel⟩
    obtain ⟨program, result⟩ := Option.isSome_iff_exists.mp
      ((luastatic_isSome_iff args).mpr fun _ _ => ⟨ascii "return 1", rfl, by decide +kernel⟩)
    obtain ⟨sources, done, rfl⟩ := luastatic_eq_some args result
    refine ⟨_, result, ?_⟩
    rw [lua_loader_eq, bundle_other args done (by decide +kernel), bundle_other args done (by decide +kernel)]
    rfl
  · rw [luastatic, arguments_lua (by decide +kernel), if_pos (by decide +kernel)]
    rfl

end OmniaJit.Bin
