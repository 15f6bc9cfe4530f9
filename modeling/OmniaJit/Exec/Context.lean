import Mathlib.Data.List.ReduceOption
import OmniaJit.Std.Sequences

/-! # Calls through `exec.context`

A context makes the argument table from what it is called with: a single string is split at its white space, and
several arguments end at the first nil.
-/

namespace OmniaJit.Exec

open OmniaJit.Data OmniaJit.Std OmniaJit.Lua OmniaJit.Lua.LibString

/-- An argument of a call: a string or nil. -/
abbrev Argument := Option Lua.Bytes

/-- A table as a list, from its first element to the one before the first nil. -/
def ipairs (values : List Argument) : List Lua.Bytes := (values.takeWhile Option.isSome).reduceOption

/-- The loop `for _, k in ipairs({...}) do args[#args+1] = k end`. A nil would leave the table as it is. -/
def pushAll (args : List Lua.Bytes) (values : List Argument) : List Lua.Bytes :=
  values.foldl (fun args value => args ++ value.toList) args

/-- What goes wrong before the program is run. -/
inductive CallError where
  /-- a pattern error -/
  | pattern (e : PatternError)
  /-- bad argument #1 to 'gmatch' -/
  | argument
deriving DecidableEq

/-- The texts among the values that `gmatch` returned. -/
def textsOf (values : List CaptureValue) : List Lua.Bytes :=
  values.filterMap fun
    | .text s => some s
    | .position _ => none

/-- The arguments that `exec.context(exe)(...)` hands to `exec.spawn`. -/
def context (values : List Argument) : Except CallError (List Lua.Bytes) :=
  match values with
  | [] => .ok []
  | [none] => .error .argument
  | [some str] =>
    match s_to_seq str with
    | .error e => .error (.pattern e)
    | .ok found => .ok (textsOf found)
  | values => .ok (pushAll [] ((ipairs values).map some))

theorem pushAll_eq (args : List Lua.Bytes) (values : List Argument) :
    pushAll args values = args ++ values.reduceOption := by
  induction values generalizing args with
  | nil => exact (List.append_nil args).symm
  | cons value values ih =>
    rw [pushAll, List.foldl_cons, ← pushAll, ih]
    cases value with
    | none => rw [Option.toList_none, List.append_nil, List.reduceOption_cons_of_none]
    | some s => rw [Option.toList_some, List.append_assoc, List.singleton_append, List.reduceOption_cons_of_some]

theorem reduceOption_some (ws : List Lua.Bytes) : (ws.map some).reduceOption = ws := by
  rw [List.reduceOption, List.filterMap_map]
  exact List.filterMap_some

/-- What several arguments give: those in front of the first nil. -/
theorem context_several {values : List Argument} (several : 2 ≤ values.length) :
    context values = .ok (ipairs values) := by
  match values, several with
  | v :: v' :: rest, _ =>
    have step : context (v :: v' :: rest) = .ok (pushAll [] ((ipairs (v :: v' :: rest)).map some)) := by
      cases v <;> rfl
    rw [step, pushAll_eq, List.nil_append, reduceOption_some]

theorem ipairs_some (ws : List Lua.Bytes) : ipairs (ws.map some) = ws := by
  rw [ipairs, List.takeWhile_eq_self_iff.mpr (by simp), reduceOption_some]

/-- What a single string gives: its words. -/
theorem context_string (str : Lua.Bytes) : context [some str] = .ok (stretches (!isSpace ·) str) := by
  rw [context, (to_seq_words str).1]
  dsimp only
  rw [textsOf, List.filterMap_map]
  exact congrArg Except.ok List.filterMap_some

/-- Arguments joined by blanks into one string are taken apart again if, and only if, none is empty and none has
white space. -/
theorem context_join {ws : List Lua.Bytes} (several : 2 ≤ ws.length) :
    context [some ([32].intercalate ws)] = context (ws.map some) ↔
      ∀ word ∈ ws, word ≠ [] ∧ ∀ c ∈ word, !isSpace c := by
  rw [context_string, context_several (by rwa [List.length_map]), ipairs_some, Except.ok.injEq]
  constructor
  · intro same
    exact (stretches_eq_iff.mp same).words
  · exact stretches_intercalate (by decide)

theorem context_join_words : context [some ([32].intercalate [ascii "-l", ascii "/tmp"])] =
    context ([ascii "-l", ascii "/tmp"].map some) := by
  refine (context_join (by decide)).mpr fun word member => ?_
  have plain : [ascii "-l", ascii "/tmp"].all (fun word => word ≠ [] && word.all (!isSpace ·)) = true := by decide
  simpa using List.all_eq_true.mp plain word member

end OmniaJit.Exec
