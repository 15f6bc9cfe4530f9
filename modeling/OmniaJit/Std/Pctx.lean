import OmniaJit.Lua.Pattern
import OmniaJit.Std.Ring

/-! # `std.exec.ctx`

The object `pctx` returns is a table of settings whose call builds a shell script, runs it through
`io.popen` and collects its output. The header formats of the source have plain `%s` directives
only and are written as concatenations here; the two formats that see the caller's text are
calls of `format`.
-/

namespace OmniaJit.Std

open OmniaJit.Lua

/-- The fields of a `ctx` object that its call reads, with their defaults. `env` and `template`
are in the order `pairs` and `next` visit them. -/
structure Settings where
  errexit : Bool := true
  unset : Bool := true
  noglob : Bool := true
  pipefail : Bool := false
  ignore : Bool := false
  clear : Bool := true
  template : List (Text × Replacement) := []
  size : ℕ := 25
  env : List (Text × Text) := []
  cwd : Option Text := none
  input : Option Text := none
  dump : Bool := false

inductive LuaError where
  | format (e : FormatError)
  | replacement (e : ReplacementError)
deriving DecidableEq

/-- The pattern `%${[%s]-([^}%G]+)[%s]-}`. -/
def templatePattern : List Item :=
  [.one (· = '$'), .one (· = '{'), .minus isSpace, .openCapture,
    .plus (fun c => !(c = '}' || !isGraph c)), .closeCapture, .minus isSpace, .one (· = '}')]

/-- `template(s, v)`. -/
def template (s : Text) (v : List (Text × Replacement)) : Except ReplacementError Text :=
  gsub s templatePattern fun key => v.lookup key

/-- A line of the header: the command if the setting is on, else the comment. -/
def hdrLine (setting : Bool) (command comment : String) : Text :=
  (if setting then command else comment).toList

def exportLine (pair : Text × Text) : Text := "export ".toList ++ pair.1 ++ '=' :: pair.2

def hdrEnv (env : List (Text × Text)) : Text :=
  if env = [] then "#export ENV".toList else ['\n'].intercalate (env.map exportLine)

/-- The ten lines every script starts with. -/
def hdrLines (set : Settings) : List Text :=
  [hdrLine set.errexit "set -e" "#set -e",
    hdrLine set.unset "set -u" "#set -u",
    hdrLine set.noglob "set -f" "#set -f",
    hdrLine set.pipefail "set -o pipefail" "#set -o pipefail",
    hdrLine set.clear "for i in $(env | cut -f 1 -d=) ; do unset $i ; done" "#clear environment",
    "unset IFS".toList,
    "export LC_ALL=C".toList,
    "export PATH=/bin:/sbin:/usr/bin:/usr/sbin".toList,
    hdrEnv set.env,
    "exec 2>&1".toList]

def cdLine (cwd : Option Text) : Text :=
  match cwd with
  | some cwd => "cd ".toList ++ cwd ++ ['\n']
  | none => []

def inputLine (input : Option Text) : Text :=
  match input with
  | some input => "printf '".toList ++ input ++ "' |\n".toList
  | none => []

/-- `hdr`. -/
def header (set : Settings) : Text :=
  (hdrLines set).flatMap (· ++ ['\n']) ++ cdLine set.cwd ++ inputLine set.input

/-- What `io.popen` and `io.close` report about a script: the lines it wrote, without their line
ends, and the last two results of the close. -/
structure Popen where
  lines : List Text
  status : Text
  code : ℕ
  plain : ∀ ln ∈ lines, '\n' ∉ ln

/-- How a call ends: with the script printed, with the program ended by `panicf`, or with the
exit code and `R.output`. -/
inductive Outcome where
  | dumped (script : Text)
  | panicked (message : Text)
  | returned (code : ℕ) (output : List Text)
deriving DecidableEq

section Call

variable {V : Type} (convert : SFormat → Value V → Except FormatError Text)

/-- `F(str, ...)`, as an error of the call. -/
def F (str : Text) (args : List (Value V)) : Except LuaError Text :=
  (format convert str args).mapError .format

/-- `line`, for a call with the string `f` and further arguments. -/
def line (set : Settings) (f : Text) (args : List (Value V)) : Except LuaError Text :=
  if args.length + 1 > 1 then F convert f args
  else if set.template ≠ [] then (template f set.template).mapError .replacement
  else .ok f

/-- The text given to `io.popen`. The second format gets every argument of the call, the first
string among them. -/
def script (set : Settings) (f : Text) (args : List (Value V)) : Except LuaError Text := do
  let line ← line convert set f args
  let str ← F convert line (.string f :: args)
  return header set ++ str

/-- The message of the panic. -/
def panicMessage (ran : Popen) (line collected : Text) : Text :=
  '<' :: ran.status ++ ':' :: (toString ran.code).toList ++ "> ".toList ++ line ++
    "\n  -- OUTPUT --\n".toList ++ collected ++ ['\n']

/-- The lines of the output, pushed onto a ring of the set size. -/
def collectLines (set : Settings) (ran : Popen) : Ring Text := Ring.pushAll set.size ran.lines

/-- The `__call` of a `ctx` object. -/
def call (set : Settings) (popen : Text → Popen) (f : Text) (args : List (Value V)) :
    Except LuaError Outcome := do
  let line ← line convert set f args
  let str ← script convert set f args
  if set.dump then
    return .dumped (">>>> SCRIPT DUMP START <<<<\n".toList ++ str ++
      "\n>>>> SCRIPT DUMP END   <<<<".toList)
  let ran := popen str
  let buffer := collectLines set ran
  if ran.code ≠ 0 ∧ !set.ignore then
    return .panicked (panicMessage ran line (buffer.concat id ['\n']))
  return .returned ran.code (buffer.table id)

end Call

end OmniaJit.Std
