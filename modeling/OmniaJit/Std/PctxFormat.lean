import OmniaJit.Std.Pctx

/-! # The command text of a `ctx` call

The text a call asks for is formatted or expanded once. The call then formats the result a second
time, with its own arguments. A text without `%` survives this; one with a `%` is changed or rejected,
unless an argument happens to spell the directive it takes the place of, as for `%s` alone.
-/

namespace OmniaJit.Std

open OmniaJit.Lua

variable {V : Type} (convert : SFormat → Value V → Except FormatError Text)

/-- The text the caller asks for: a string as it stands, expanded if there is a template, or a
format with its arguments. -/
def commandText (set : Settings) (f : Text) : List (Value V) → Except LuaError Text
  | [] => if set.template = [] then .ok f else (template f set.template).mapError .replacement
  | v :: args => F convert f (v :: args)

/-- The script is the header and that text, and no error is added. -/
def RunsVerbatim (set : Settings) (f : Text) (args : List (Value V)) : Prop :=
  script convert set f args = (commandText convert set f args).map (header set ++ ·)

theorem line_eq_commandText (set : Settings) (f : Text) (args : List (Value V)) :
    line convert set f args = commandText convert set f args := by
  cases args with
  | nil => by_cases empty : set.template = [] <;> simp [line, commandText, empty]
  | cons v args => simp [line, commandText]

theorem F_eq_ok_iff {str out : Text} {args : List (Value V)} :
    F convert str args = .ok out ↔ format convert str args = .ok out := by
  rw [F]
  cases format convert str args <;> simp [Except.mapError]

/-- A call whose text is known runs it unchanged exactly when the second format returns it. -/
theorem runsVerbatim_of_text {set : Settings} {f : Text} {args : List (Value V)} {text : Text}
    (known : commandText convert set f args = .ok text) :
    RunsVerbatim convert set f args ↔ format convert text (.string f :: args) = .ok text := by
  rw [RunsVerbatim, script, line_eq_commandText, known, ← F_eq_ok_iff]
  simp only [bind, Except.bind, Except.map]
  cases F convert text (.string f :: args) with
  | error e => simp
  | ok str => simp [pure, Except.pure]

/-- A call runs a command text without `%` as it is. Of the others it changes or rejects each one that has no
directive, where nothing can take the place of what the second format removes. -/
theorem runsVerbatim_plain (set : Settings) (f : Text) (args : List (Value V)) :
    ((∀ text, commandText convert set f args = .ok text → '%' ∉ text) → RunsVerbatim convert set f args) ∧
    (RunsVerbatim convert set f args → ∀ text, commandText convert set f args = .ok text →
      '%' ∉ text ∨ ∃ sf, .directive sf ∈ pieces text) := by
  constructor
  · intro plain
    cases known : commandText convert set f args with
    | error e =>
      rw [RunsVerbatim, script, line_eq_commandText, known]
      rfl
    | ok text =>
      rw [runsVerbatim_of_text convert known]
      exact format_of_no_percent convert (plain text known) _
  · intro verbatim text known
    have fixed := (runsVerbatim_of_text convert known).mp verbatim
    exact format_fixed convert fixed

/-- No `%d` and the like is ever reached. -/
private def noConversion (_ : SFormat) (_ : Value Unit) : Except FormatError Text := .ok []

theorem runsVerbatim_plain_date : RunsVerbatim noConversion {} "date".toList [] := by
  have plain (text : Text) (known : commandText noConversion {} "date".toList [] = .ok text) : '%' ∉ text := by
    obtain rfl : "date".toList = text := Except.ok.inj known
    decide
  exact (runsVerbatim_plain noConversion {} "date".toList []).1 plain

/-- `date +%Y` is rejected, although nothing in it is a format to the caller. -/
theorem date_not_verbatim :
    ¬ ∀ (set : Settings) (f : Text) (args : List (Value Unit)), RunsVerbatim noConversion set f args := by
  intro verbatim
  have known : commandText noConversion {} "date +%Y".toList [] = .ok "date +%Y".toList := rfl
  have fixed := (runsVerbatim_of_text noConversion known).mp (verbatim {} "date +%Y".toList [])
  have rejected : format noConversion "date +%Y".toList [.string "date +%Y".toList] =
      .error (.option "%Y".toList) := by decide
  rw [rejected] at fixed
  contradiction

end OmniaJit.Std
