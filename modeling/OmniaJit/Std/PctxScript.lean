import Mathlib.Data.List.Forall2
import OmniaJit.Posix.Utility
import OmniaJit.Std.Pctx

/-! # The settings of a `ctx` object in its script

The values of `env`, `cwd` and `input` are pasted into three different places of the header. The
shell reads the header line by line; a value is data if its line has the same tokens as for `x`,
the one that holds the value means exactly the value, and the text after the header is read from
its start.
-/

namespace OmniaJit.Std

open OmniaJit.Lua OmniaJit.Posix.Shell

/-- A line of the header, by the setting it depends on. -/
inductive Entry where
  | fixed (text : Text)
  | exported (name value : Text)
  | cd (cwd : Text)
  | feed (input : Text)

/-- The line without its line end. -/
def Entry.text : Entry → Text
  | .fixed text => text
  | .exported name value => exportLine (name, value)
  | .cd cwd => "cd ".toList ++ cwd
  | .feed input => "printf '".toList ++ input ++ "' |".toList

def envEntries (env : List (Text × Text)) : List Entry :=
  if env = [] then [.fixed (hdrEnv [])] else env.map fun pair => .exported pair.1 pair.2

/-- The lines of the header. -/
def entries (set : Settings) : List Entry :=
  ((hdrLines set).take 8).map .fixed ++ envEntries set.env ++ ((hdrLines set).drop 9).map .fixed ++
    set.cwd.toList.map .cd ++ set.input.toList.map .feed

def textOf (lines : List Entry) : Text := lines.flatMap fun line => line.text ++ ['\n']

theorem textOf_append (lines more : List Entry) : textOf (lines ++ more) = textOf lines ++ textOf more :=
  List.flatMap_append

theorem textOf_cons_append (line : Entry) (lines : List Entry) (str : Text) :
    textOf (line :: lines) ++ str = line.text ++ '\n' :: (textOf lines ++ str) := by
  simp only [textOf, List.flatMap_cons, List.append_assoc, List.cons_append, List.nil_append]

theorem textOf_fixed (texts : List Text) :
    textOf (texts.map .fixed) = texts.flatMap (· ++ ['\n']) := List.flatMap_map ..

theorem textOf_exports {env : List (Text × Text)} (nonempty : env ≠ []) :
    textOf (env.map fun pair => .exported pair.1 pair.2) =
      ['\n'].intercalate (env.map exportLine) ++ ['\n'] := by
  induction env with
  | nil => exact absurd rfl nonempty
  | cons pair env ih =>
    rw [List.map_cons, List.map_cons, textOf, List.flatMap_cons, ← textOf]
    by_cases last : env = []
    · subst last
      rw [List.map_nil, List.map_nil, List.intercalate_singleton]
      exact List.append_nil _
    · rw [ih last, List.intercalate_cons_of_ne_nil (by simpa using last)]
      simp only [List.append_assoc]
      rfl

theorem textOf_env (env : List (Text × Text)) : textOf (envEntries env) = hdrEnv env ++ ['\n'] := by
  by_cases empty : env = []
  · subst empty
    exact List.append_nil _
  · rw [envEntries, if_neg empty, hdrEnv, if_neg empty]
    exact textOf_exports empty

theorem textOf_cd (cwd : Option Text) : textOf (cwd.toList.map .cd) = cdLine cwd := by
  cases cwd with
  | none => rfl
  | some cwd => exact List.append_nil _

theorem textOf_feed (input : Option Text) : textOf (input.toList.map .feed) = inputLine input := by
  cases input with
  | none => rfl
  | some input =>
    have ends : "' |".toList ++ ['\n'] = "' |\n".toList := rfl
    calc textOf [.feed input]
      _ = "printf '".toList ++ input ++ "' |".toList ++ ['\n'] := List.append_nil _
      _ = "printf '".toList ++ input ++ ("' |".toList ++ ['\n']) := List.append_assoc _ _ _
      _ = inputLine (some input) := congrArg ("printf '".toList ++ input ++ ·) ends

theorem header_eq_textOf (set : Settings) : header set = textOf (entries set) := by
  have split : hdrLines set = (hdrLines set).take 8 ++ hdrEnv set.env :: (hdrLines set).drop 9 := rfl
  rw [header, split, List.flatMap_append, List.flatMap_cons, entries, textOf_append, textOf_append,
    textOf_append, textOf_append, textOf_fixed, textOf_fixed, textOf_env, textOf_cd, textOf_feed]
  simp only [List.append_assoc]

/-- The same object with `x` for each of the values. -/
def Settings.masked (set : Settings) : Settings :=
  { set with
    env := set.env.map fun pair => (pair.1, ['x'])
    cwd := set.cwd.map fun _ => ['x']
    input := set.input.map fun _ => ['x'] }

/-- The text is one logical line of a script, whatever comes after it. -/
def Complete (text : Text) (line : List Token) : Prop :=
  ∀ rest, readLine (text ++ '\n' :: rest) = some (line, rest)

/-- The line does with its value what the setting is for. -/
def Meant (globbing : Bool) : Entry → List Token → Prop
  | .fixed text, line => Complete text line
  | .exported name value, line => ∃ verb word, line = [.word verb, .word word] ∧
      argument globbing verb = some "export".toList ∧ assignment word = some (name, value)
  | .cd cwd, line => ∃ verb word, line = [.word verb, .word word] ∧
      argument globbing verb = some "cd".toList ∧ (argument globbing word).bind operand = some cwd
  | .feed input, line => ∃ verb word, line = [.word verb, .word word, .operator ['|']] ∧
      argument globbing verb = some "printf".toList ∧
      ((argument globbing word).bind operand).bind printf = some input

/-- The same command, up to its first argument. -/
def SameCommand (line line' : List Token) : Prop :=
  line = line' ∨ ∃ verb word word' rest, line = verb :: .word word :: rest ∧
    line' = verb :: .word word' :: rest

/-- The values of the object are data in every script it makes. -/
def IsData (set : Settings) : Prop :=
  ∀ str, ∃ lines lines',
    readLines (entries set).length (header set ++ str) = some (lines, str) ∧
    readLines (entries set).length (header set.masked ++ str) = some (lines', str) ∧
    List.Forall₂ SameCommand lines lines' ∧
    List.Forall₂ (Meant (!set.noglob)) (entries set) lines

/-- A value between the quotes and conversions of its place: the conditions under which it is
data. -/
def InertEntry (globbing : Bool) : Entry → Prop
  | .fixed _ => True
  | .exported _ value => (∀ c ∈ value, isPlain c) ∧ startsTilde (value.map .bare) = false ∧
      tildeAfterColon (value.map .bare) = false
  | .cd cwd => cwd ≠ [] ∧ (∀ c ∈ cwd, isPlain c) ∧ cwd.head? ≠ some '#' ∧
      startsTilde (cwd.map .bare) = false ∧ (globbing && hasPattern (cwd.map .bare)) = false ∧
      (cwd.head? = some '-' → cwd = ['-'])
  | .feed input => '\'' ∉ input ∧ '%' ∉ input ∧ '\\' ∉ input ∧
      (input.head? = some '-' → input = ['-'])

/-- A character of a shell name. -/
def isNameChar (c : Char) : Bool := c.isAlphanum || c = '_'

/-- A name of the shell language. -/
def IsName (name : Text) : Prop := (∃ c ∈ name.head?, ¬ c.isDigit) ∧ ∀ c ∈ name, isNameChar c

section Names

theorem plain_of_nameChar {c : Char} (nameChar : isNameChar c) : isPlain c ∧ c ≠ '=' ∧ c ≠ '#' := by
  have other {d : Char} (special : isNameChar d = false) : c ≠ d := by
    rintro rfl
    simp [special] at nameChar
  have unending : endsWord c = false := by
    simp only [endsWord, isBlank, isOperatorChar, List.mem_cons, List.not_mem_nil, or_false,
      Bool.or_eq_false_iff, decide_eq_false_iff_not, not_or]
    exact ⟨⟨⟨other rfl, other rfl⟩, other rfl⟩, other rfl, other rfl, other rfl, other rfl, other rfl,
      other rfl, other rfl⟩
  have unquoting : isQuote c = false := by
    simp only [isQuote, List.mem_cons, List.not_mem_nil, or_false, decide_eq_false_iff_not, not_or]
    exact ⟨other rfl, other rfl, other rfl⟩
  have unexpanding : startsExpansion c = false := by
    simp only [startsExpansion, List.mem_cons, List.not_mem_nil, or_false, decide_eq_false_iff_not,
      not_or]
    exact ⟨other rfl, other rfl⟩
  exact ⟨by simp [isPlain, unending, unquoting, unexpanding], other rfl, other rfl⟩

/-- What the shell needs to know of a name. -/
theorem IsName.spec {name : Text} (isName : IsName name) :
    name ≠ [] ∧ (∀ c ∈ name, isPlain c) ∧ '=' ∉ name ∧ '#' ∉ name := by
  obtain ⟨⟨c, head, -⟩, chars⟩ := isName
  refine ⟨?_, fun c member => (plain_of_nameChar (chars c member)).1, fun member => ?_, fun member => ?_⟩
  · rintro rfl
    simp at head
  · exact (plain_of_nameChar (chars _ member)).2.1 rfl
  · exact (plain_of_nameChar (chars _ member)).2.2 rfl

end Names

section Fixed

/-- A line of the header that depends on no value. -/
structure FixedLine (text : Text) : Prop where
  complete : ∃ line, Complete text line
  head : ∃ c rest, text = c :: rest ∧ endsWord c = false ∧ isQuote c = false

theorem fixedLine_hdrLine {command comment : String} (setting : Bool)
    (on : FixedLine command.toList) (off : FixedLine comment.toList) :
    FixedLine (hdrLine setting command comment) := by
  cases setting
  · exact off
  · exact on

theorem fixedLine_of_mem (set : Settings) :
    ∀ text ∈ (hdrLines set).take 8 ++ (hdrLines set).drop 9, FixedLine text := by
  intro text member
  have lines : (hdrLines set).take 8 ++ (hdrLines set).drop 9 =
      [hdrLine set.errexit "set -e" "#set -e", hdrLine set.unset "set -u" "#set -u",
        hdrLine set.noglob "set -f" "#set -f",
        hdrLine set.pipefail "set -o pipefail" "#set -o pipefail",
        hdrLine set.clear "for i in $(env | cut -f 1 -d=) ; do unset $i ; done" "#clear environment",
        "unset IFS".toList, "export LC_ALL=C".toList,
        "export PATH=/bin:/sbin:/usr/bin:/usr/sbin".toList, "exec 2>&1".toList] := rfl
  have fixed {text : Text} {line : List Token} (complete : Complete text line) {c : Char} {rest : Text}
      (head : text = c :: rest) (inWord : endsWord c = false) (unquoting : isQuote c = false) :
      FixedLine text := ⟨⟨line, complete⟩, c, rest, head, inWord, unquoting⟩
  rw [lines] at member
  simp only [List.mem_cons, List.not_mem_nil, or_false] at member
  rcases member with rfl | rfl | rfl | rfl | rfl | rfl | rfl | rfl | rfl <;>
    first
    | exact fixed (fun _ => rfl) rfl rfl rfl
    | exact fixedLine_hdrLine _ (fixed (fun _ => rfl) rfl rfl rfl) (fixed (fun _ => rfl) rfl rfl rfl)

end Fixed

/-- A line of a header whose names are names. -/
def WellFormed : Entry → Prop
  | .fixed text => FixedLine text
  | .exported name _ => IsName name
  | _ => True

section Forward

variable {globbing : Bool}

/-- A command with one plain argument. -/
theorem complete_plain {verb value : Text} (verbPlain : ∀ c ∈ verb, isPlain c) (verbSome : verb ≠ [])
    (verbCommand : verb.head? ≠ some '#') (plain : ∀ c ∈ value, isPlain c) (nonempty : value ≠ [])
    (uncommented : value.head? ≠ some '#') :
    Complete (verb ++ ' ' :: value) [.word (verb.map .bare), .word (value.map .bare)] := by
  intro rest
  rw [List.append_assoc, List.cons_append, readLine_verb verbPlain verbSome verbCommand,
    scan_last plain nonempty uncommented]
  rfl

theorem exportLine_eq (name value : Text) :
    exportLine (name, value) = "export".toList ++ ' ' :: (name ++ '=' :: value) := rfl

theorem assigned_plain {name value : Text} (isName : IsName name) (plain : ∀ c ∈ value, isPlain c) :
    (∀ c ∈ name ++ '=' :: value, isPlain c) ∧ name ++ '=' :: value ≠ [] ∧
      (name ++ '=' :: value).head? ≠ some '#' := by
  obtain ⟨nonempty, namePlain, -, unhashed⟩ := isName.spec
  refine ⟨?_, ?_, ?_⟩
  · intro c member
    rcases List.mem_append.mp member with inName | inValue
    · exact namePlain c inName
    · rcases List.mem_cons.mp inValue with rfl | inValue
      · decide
      · exact plain c inValue
  · simp
  · intro head
    rw [List.head?_append_of_ne_nil _ nonempty] at head
    exact unhashed (List.mem_of_mem_head? head)

theorem complete_exported {name value : Text} (isName : IsName name)
    (plain : ∀ c ∈ value, isPlain c) :
    Complete (exportLine (name, value))
      [.word ("export".toList.map .bare), .word ((name ++ '=' :: value).map .bare)] := by
  obtain ⟨allPlain, nonempty, uncommented⟩ := assigned_plain isName plain
  have command : ∀ c ∈ "export".toList, isPlain c := List.all_eq_true.mp rfl
  rw [exportLine_eq]
  exact complete_plain command (by decide) (by decide) allPlain nonempty uncommented

theorem complete_cd {cwd : Text} (nonempty : cwd ≠ []) (plain : ∀ c ∈ cwd, isPlain c)
    (uncommented : cwd.head? ≠ some '#') :
    Complete (Entry.cd cwd).text [.word ("cd".toList.map .bare), .word (cwd.map .bare)] := by
  have command : ∀ c ∈ "cd".toList, isPlain c := List.all_eq_true.mp rfl
  exact complete_plain command (by decide) (by decide) plain nonempty uncommented

/-- The text of the last line with what follows it, cut at its words. -/
theorem feed_text (input rest : Text) : (Entry.feed input).text ++ '\n' :: rest =
    "printf".toList ++ ' ' :: ('\'' :: (input ++ ['\'']) ++ (" |\n".toList ++ rest)) := by
  have cut (verb : Text) : verb ++ [' ', '\''] ++ input ++ ['\'', ' ', '|'] ++ '\n' :: rest =
      verb ++ ' ' :: ('\'' :: (input ++ ['\'']) ++ ([' ', '|', '\n'] ++ rest)) := by simp
  exact cut "printf".toList

theorem complete_feed {input : Text} (closed : '\'' ∉ input) :
    Complete (Entry.feed input).text
      [.word ("printf".toList.map .bare), .word (input.map .quoted), .operator ['|']] := by
  intro rest
  have command : ∀ c ∈ "printf".toList, isPlain c := List.all_eq_true.mp rfl
  rw [feed_text, readLine_verb command (by decide) (by decide), scan_quoted_pipe closed]
  rfl

theorem operand_of_dash {value : Text} (dash : value.head? = some '-' → value = ['-']) :
    operand value = some value :=
  if_neg fun option => option.2 (dash option.1)

theorem argument_verb (globbing : Bool) {verb : Text} (plain : startsTilde (verb.map .bare) = false)
    (literal : hasPattern (verb.map .bare) = false) :
    argument globbing (verb.map .bare) = some verb := by
  rw [argument_bare, plain, literal, Bool.and_false]
  rfl

/-- The line with `x` for its value. -/
def Entry.masked : Entry → Entry
  | .fixed text => .fixed text
  | .exported name _ => .exported name ['x']
  | .cd _ => .cd ['x']
  | .feed _ => .feed ['x']

/-- A value without special characters is data on its line. -/
theorem reads_of_inert {line : Entry} (wellFormed : WellFormed line)
    (inert : InertEntry globbing line) :
    ∃ tokens tokens', Complete line.text tokens ∧ Complete line.masked.text tokens' ∧
      SameCommand tokens tokens' ∧ Meant globbing line tokens := by
  cases line with
  | fixed text =>
    obtain ⟨tokens, complete⟩ := wellFormed.complete
    exact ⟨tokens, tokens, complete, complete, .inl rfl, complete⟩
  | exported name value =>
    obtain ⟨plain, untilded, uncoloned⟩ := inert
    refine ⟨_, _, complete_exported wellFormed plain, complete_exported wellFormed (List.all_eq_true.mp rfl),
      .inr ⟨_, _, _, _, rfl, rfl⟩, _, _, rfl, argument_verb globbing rfl rfl, ?_⟩
    rw [assignment_bare wellFormed.spec.2.2.1, untilded, uncoloned]
    rfl
  | cd cwd =>
    obtain ⟨nonempty, plain, uncommented, untilded, unpatterned, dash⟩ := inert
    refine ⟨_, _, complete_cd nonempty plain uncommented,
      complete_cd (by decide) (List.all_eq_true.mp rfl) (by decide),
      .inr ⟨_, _, _, _, rfl, rfl⟩, _, _, rfl, argument_verb globbing rfl rfl, ?_⟩
    rw [argument_bare, untilded, unpatterned]
    exact operand_of_dash dash
  | feed input =>
    obtain ⟨closed, unconverted, unescaped, dash⟩ := inert
    refine ⟨_, _, complete_feed closed, complete_feed (by decide),
      .inr ⟨_, _, _, _, rfl, rfl⟩, _, _, rfl, argument_verb globbing rfl rfl, ?_⟩
    rw [argument_quoted, Option.bind_some, operand_of_dash dash, Option.bind_some,
      printf_of_plain ⟨unconverted, unescaped⟩]

/-- A header of such lines is read line by line, up to the text after it. -/
theorem readLines_of_inert {lines : List Entry} (wellFormed : ∀ line ∈ lines, WellFormed line)
    (inert : ∀ line ∈ lines, InertEntry globbing line) (str : Text) :
    ∃ read read', readLines lines.length (textOf lines ++ str) = some (read, str) ∧
      readLines lines.length (textOf (lines.map Entry.masked) ++ str) = some (read', str) ∧
      List.Forall₂ SameCommand read read' ∧ List.Forall₂ (Meant globbing) lines read := by
  induction lines with
  | nil => exact ⟨[], [], rfl, rfl, .nil, .nil⟩
  | cons line lines ih =>
    obtain ⟨tokens, tokens', complete, complete', same, meant⟩ :=
      reads_of_inert (wellFormed line (List.mem_cons_self ..)) (inert line (List.mem_cons_self ..))
    obtain ⟨read, read', all, all', sames, meants⟩ :=
      ih (fun line member => wellFormed line (List.mem_cons_of_mem _ member))
        (fun line member => inert line (List.mem_cons_of_mem _ member))
    refine ⟨tokens :: read, tokens' :: read', ?_, ?_, .cons same sames, .cons meant meants⟩
    · rw [textOf_cons_append]
      exact readLines_cons_iff.mpr ⟨_, _, _, complete _, all, rfl⟩
    · rw [List.map_cons, textOf_cons_append]
      exact readLines_cons_iff.mpr ⟨_, _, _, complete' _, all', rfl⟩

end Forward

section Backward

variable {globbing : Bool} {tokens : List Token} {rest : Text}

/-- The first word of a line that starts with a plainly written command. -/
theorem verb_of_scan {verb found : List Posix.Shell.Piece} {text : Text} {more : List Token}
    (read : scan .between [.word verb] text = some (.word found :: more, rest)) : found = verb := by
  have start := prefix_of_scan read
  rw [List.cons_prefix_cons] at start
  exact (Token.word.inj start.1).symm

/-- The argument of a command with one argument is plainly written if its value is all of it. -/
theorem plain_of_readLine {verb value following : Text} {c : Char} {found word : List Posix.Shell.Piece}
    (verbPlain : ∀ c ∈ verb, isPlain c) (verbSome : verb ≠ []) (verbCommand : verb.head? ≠ some '#')
    (inWord : endsWord c = false) (unquoting : isQuote c = false)
    (read : readLine (verb ++ ' ' :: value ++ '\n' :: c :: following) =
      some ([.word found, .word word], rest))
    (literal : Literal word) (same : chars word = value) :
    value ≠ [] ∧ (∀ d ∈ value, isPlain d) ∧ value.head? ≠ some '#' ∧ word = value.map .bare := by
  rw [List.append_assoc, List.cons_append, readLine_verb verbPlain verbSome verbCommand] at read
  obtain rfl := verb_of_scan read
  have second : scan .between [.word (verb.map .bare)] (value ++ '\n' :: c :: following) =
      some ([.word (verb.map .bare)] ++ .word word :: [], rest) := read
  obtain ⟨nonempty, plain, uncommented⟩ := plain_of_scan second inWord unquoting literal same
  rw [scan_last plain nonempty uncommented] at second
  obtain ⟨line, -⟩ := Prod.mk.inj (Option.some.inj second)
  have last := (List.cons.inj (List.append_cancel_left line)).1
  exact ⟨nonempty, plain, uncommented, (Token.word.inj last).symm⟩

theorem inert_exported {name value following : Text} {c : Char} (isName : IsName name)
    (inWord : endsWord c = false) (unquoting : isQuote c = false)
    (read : readLine (exportLine (name, value) ++ '\n' :: c :: following) = some (tokens, rest))
    (meant : Meant globbing (.exported name value) tokens) :
    InertEntry globbing (.exported name value) := by
  obtain ⟨verb, word, rfl, -, assigns⟩ := meant
  obtain ⟨literal, same⟩ := assignment_eq_some assigns
  have command : ∀ c ∈ "export".toList, isPlain c := List.all_eq_true.mp rfl
  rw [exportLine_eq] at read
  obtain ⟨-, plain, -, rfl⟩ := plain_of_readLine command (by decide) (by decide) inWord unquoting
    read literal same
  rw [assignment_bare isName.spec.2.2.1] at assigns
  split_ifs at assigns with tilde
  rw [Bool.or_eq_true, not_or, Bool.not_eq_true, Bool.not_eq_true] at tilde
  exact ⟨fun c member => plain c (List.mem_append_right _ (List.mem_cons_of_mem _ member)), tilde⟩

theorem inert_cd {cwd following : Text} {c : Char} (inWord : endsWord c = false)
    (unquoting : isQuote c = false)
    (read : readLine ((Entry.cd cwd).text ++ '\n' :: c :: following) = some (tokens, rest))
    (meant : Meant globbing (.cd cwd) tokens) : InertEntry globbing (.cd cwd) := by
  obtain ⟨verb, word, rfl, -, receives⟩ := meant
  obtain ⟨argument, known, receives⟩ := Option.bind_eq_some_iff.mp receives
  obtain ⟨rfl, dash⟩ := operand_eq_some receives
  obtain ⟨literal, same, -, -⟩ := argument_eq_some known
  have command : ∀ c ∈ "cd".toList, isPlain c := List.all_eq_true.mp rfl
  obtain ⟨nonempty, plain, uncommented, rfl⟩ := plain_of_readLine command (by decide) (by decide)
    inWord unquoting read literal same
  obtain ⟨-, -, untilded, unpatterned⟩ := argument_eq_some known
  exact ⟨nonempty, plain, uncommented, untilded, unpatterned, dash⟩

/-- A word that starts with a single quote and contains another one is worth less than its text,
up to the quote at its end. -/
theorem cost_quoted_lt {input remaining consumed : Text} {fed : List Posix.Shell.Piece × Reader}
    (quoting : '\'' ∈ input) (feed : Reader.feed {} ('\'' :: consumed) = some fed)
    (closed : fed.2.stack = []) (literal : Literal fed.1)
    (within : input ++ ['\''] = consumed ++ remaining) :
    weight cost (chars fed.1) < weight cost input := by
  obtain ⟨pieces, next, last, step, more, rfl⟩ := feed_cons feed
  obtain ⟨rfl, rfl⟩ := Prod.mk.inj (Option.some.inj step)
  have unclosed : '\'' ∈ consumed := by
    by_contra plain
    rw [feed_of_single plain] at more
    obtain rfl := Option.some.inj more
    simp at closed
  obtain ⟨a, b, rfl, plain⟩ := List.eq_append_cons_of_mem unclosed
  rw [feed_of_single_close plain] at more
  obtain ⟨rest, tail, rfl⟩ := Option.map_eq_some_iff.mp more
  have restLiteral : Literal rest.1 := fun piece member =>
    literal piece (List.mem_append_right _ (List.mem_append_right _ member))
  rw [List.append_assoc, List.cons_append] at within
  have total : weight cost (chars (a.map .quoted ++ rest.1)) =
      weight cost a + weight cost (chars rest.1) := by
    rw [chars_append, chars_quoted, weight_append]
  have paid : weight cost ['\''] = 1 := rfl
  simp only [List.nil_append, total]
  obtain ⟨b', rfl, short⟩ : ∃ b', input = a ++ '\'' :: b' ∧
      weight cost (chars rest.1) ≤ weight cost b' := by
    rcases List.eq_nil_or_concat' remaining with rfl | ⟨remaining, last, rfl⟩
    · -- the word goes up to the last quote, which it loses as well
      rcases List.eq_nil_or_concat' b with rfl | ⟨b, last, rfl⟩
      · rw [List.append_nil] at within
        exact absurd (List.append_cancel_right within ▸ quoting) plain
      · have parts : input ++ ['\''] = (a ++ '\'' :: b) ++ [last] := by simp [within]
        obtain ⟨same, lastSame⟩ := List.append_inj' parts rfl
        obtain rfl := (List.cons.inj lastSame).1
        refine ⟨b, same, ?_⟩
        have lost := weight_feed_lt cost cost_quote tail restLiteral ⟨'\'', by simp, rfl⟩
        rw [weight_append] at lost
        omega
    · have parts : input ++ ['\''] = (a ++ '\'' :: (b ++ remaining)) ++ [last] := by simp [within]
      refine ⟨b ++ remaining, (List.append_inj' parts rfl).1, ?_⟩
      have kept := weight_feed_le cost tail
      rw [pending_plain] at kept
      rw [weight_append]
      omega
  have head : weight cost ('\'' :: b') = 1 + weight cost b' := rfl
  rw [weight_append, head]
  omega

/-- A word that starts at the quoted input does not go on past it. -/
theorem within_quotes {input consumed left : Text} {fed : List Posix.Shell.Piece × Reader}
    (reads : Reads {} consumed fed left)
    (split : '\'' :: (input ++ ['\'']) ++ [' ', '|', '\n', 'x'] = consumed ++ left) :
    ∃ remaining, '\'' :: (input ++ ['\'']) = consumed ++ remaining := by
  rcases List.append_eq_append_iff.mp split with ⟨past, rfl, rest⟩ | ⟨remaining, same, -⟩
  · match past with
    | [] => exact ⟨[], by simp⟩
    | c :: past =>
      exfalso
      obtain ⟨rfl, rest⟩ := List.cons.inj rest
      have neutral : ∀ d ∈ ' ' :: past, isNeutral d := by
        have all : ∀ d ∈ [' ', '|', '\n', 'x'], isNeutral d := List.all_eq_true.mp rfl
        exact fun d member => all d (rest ▸ List.mem_append_left left member)
      have feed := reads.feed
      rw [← List.cons_append, List.append_assoc] at feed
      obtain ⟨start, ended, _, quoted, rfl⟩ := feed_append_eq_some feed
      obtain ⟨_, next, last, close, blanks, rfl⟩ := feed_cons quoted
      have outside : next.stack = [] := (stack_of_feed blanks neutral).symm.trans reads.closed
      obtain ⟨_, _, _, blank, _, _⟩ := feed_cons blanks
      have plain := previous_of_advance close (by decide) (by decide)
      rcases after_of_endsWord blank outside rfl with after | after <;> simp [plain] at after
  · exact ⟨remaining, same⟩

theorem inert_feed {input : Text}
    (read : readLine ((Entry.feed input).text ++ '\n' :: ['x']) = some (tokens, rest))
    (meant : Meant globbing (.feed input) tokens) : InertEntry globbing (.feed input) := by
  obtain ⟨verb, word, rfl, -, receives⟩ := meant
  obtain ⟨format, receives, printed⟩ := Option.bind_eq_some_iff.mp receives
  obtain ⟨argument, known, receives⟩ := Option.bind_eq_some_iff.mp receives
  obtain ⟨rfl, dash⟩ := operand_eq_some receives
  obtain ⟨literal, value, -, -⟩ := argument_eq_some known
  have command : ∀ c ∈ "printf".toList, isPlain c := List.all_eq_true.mp rfl
  rw [feed_text, readLine_verb command (by decide) (by decide)] at read
  obtain rfl := verb_of_scan read
  have second : scan .between [.word ("printf".toList.map .bare)]
      ('\'' :: (input ++ ['\'']) ++ (" |\n".toList ++ ['x'])) =
      some ([.word ("printf".toList.map .bare)] ++ .word word :: [.operator ['|']], rest) := read
  by_cases closed : '\'' ∉ input
  · rw [scan_quoted_pipe closed] at second
    obtain ⟨line, -⟩ := Prod.mk.inj (Option.some.inj second)
    obtain rfl := Token.word.inj (List.cons.inj (List.append_cancel_left line)).1
    rw [chars_quoted] at value
    subst value
    obtain ⟨unconverted, unescaped⟩ := printf_eq_self_iff.mp printed
    exact ⟨closed, unconverted, unescaped, dash⟩
  · exfalso
    rw [not_not] at closed
    obtain ⟨blanks, consumed, left, fed, split, allBlank, nonempty, -, reads, rfl⟩ :=
      scan_between second
    have unblank : blanks = [] := by
      cases blanks with
      | nil => rfl
      | cons c blanks =>
        obtain ⟨rfl, -⟩ := List.cons.inj split
        exact absurd (allBlank _ (List.mem_cons_self ..)) (by decide)
    subst unblank
    obtain ⟨remaining, within⟩ := within_quotes reads split
    cases consumed with
    | nil => exact nonempty rfl
    | cons c consumed =>
      obtain ⟨rfl, inside⟩ := List.cons.inj within
      have less := cost_quoted_lt closed reads.feed reads.closed literal inside
      have more := weight_output_le printed
      rw [value] at less
      exact Nat.lt_irrefl _ (Nat.lt_of_lt_of_le less (by simpa [Format.credit] using more))

/-- What follows the lines starts a word. -/
theorem textOf_head {lines : List Entry} (wellFormed : ∀ line ∈ lines, WellFormed line) :
    ∃ c following, textOf lines ++ ['x'] = c :: following ∧ endsWord c = false ∧ isQuote c = false := by
  cases lines with
  | nil => exact ⟨'x', [], rfl, rfl, rfl⟩
  | cons line lines =>
    rw [textOf_cons_append]
    cases line with
    | fixed text =>
      obtain ⟨c, following, rfl, inWord, unquoting⟩ := (wellFormed _ (List.mem_cons_self ..)).head
      exact ⟨c, _, rfl, inWord, unquoting⟩
    | exported name value => exact ⟨'e', _, rfl, rfl, rfl⟩
    | cd cwd => exact ⟨'c', _, rfl, rfl, rfl⟩
    | feed input => exact ⟨'p', _, rfl, rfl, rfl⟩

/-- Nothing stands between the input and the command that reads it. -/
def FeedLast : List Entry → Prop
  | [] => True
  | .feed _ :: lines => lines = []
  | _ :: lines => FeedLast lines

theorem FeedLast.tail {line : Entry} {lines : List Entry} (last : FeedLast (line :: lines)) :
    FeedLast lines := by
  cases line with
  | feed input => exact Eq.mpr (congrArg FeedLast last) trivial
  | fixed | exported | cd => exact last

/-- A line read as meant has a value without special characters. -/
theorem inert_of_reads {line : Entry} {lines : List Entry}
    (wellFormed : ∀ other ∈ line :: lines, WellFormed other) (last : FeedLast (line :: lines))
    (read : readLine (line.text ++ '\n' :: (textOf lines ++ ['x'])) = some (tokens, rest))
    (meant : Meant globbing line tokens) : InertEntry globbing line := by
  obtain ⟨c, following, start, inWord, unquoting⟩ :=
    textOf_head fun line member => wellFormed line (List.mem_cons_of_mem _ member)
  have own := wellFormed line (List.mem_cons_self ..)
  cases line with
  | fixed text => trivial
  | exported name value =>
    rw [start] at read
    exact inert_exported own inWord unquoting read meant
  | cd cwd =>
    rw [start] at read
    exact inert_cd inWord unquoting read meant
  | feed input =>
    obtain rfl : lines = [] := last
    exact inert_feed read meant

/-- If the lines are read as meant before some text, none of their values is special. -/
theorem inert_of_readLines {lines : List Entry} {read : List (List Token)}
    (wellFormed : ∀ line ∈ lines, WellFormed line) (last : FeedLast lines)
    (reads : readLines lines.length (textOf lines ++ ['x']) = some (read, ['x']))
    (meant : List.Forall₂ (Meant globbing) lines read) :
    ∀ line ∈ lines, InertEntry globbing line := by
  induction lines generalizing read with
  | nil => exact nofun
  | cons line lines ih =>
    rw [textOf_cons_append] at reads
    obtain ⟨tokens, more, later, first, others, rfl⟩ := readLines_cons_iff.mp reads
    obtain ⟨own, rest⟩ := List.forall₂_cons.mp meant
    have inert := inert_of_reads wellFormed last first own
    -- a line without special characters ends where it is meant to
    obtain ⟨tokens', -, complete, -⟩ := reads_of_inert (wellFormed line (List.mem_cons_self ..)) inert
    obtain ⟨-, rfl⟩ := Prod.mk.inj (Option.some.inj (first.symm.trans (complete _)))
    have tail := ih (fun line member => wellFormed line (List.mem_cons_of_mem _ member)) last.tail
      others rest
    intro other member
    rcases List.mem_cons.mp member with rfl | member
    · exact inert
    · exact tail other member

end Backward

/-- The values that are data in the scripts of the object. -/
structure Inert (set : Settings) : Prop where
  env : ∀ pair ∈ set.env, (∀ c ∈ pair.2, isPlain c) ∧ startsTilde (pair.2.map .bare) = false ∧
    tildeAfterColon (pair.2.map .bare) = false
  cwd : ∀ cwd ∈ set.cwd, cwd ≠ [] ∧ (∀ c ∈ cwd, isPlain c) ∧ cwd.head? ≠ some '#' ∧
    startsTilde (cwd.map .bare) = false ∧ (!set.noglob && hasPattern (cwd.map .bare)) = false ∧
    (cwd.head? = some '-' → cwd = ['-'])
  input : ∀ input ∈ set.input, '\'' ∉ input ∧ '%' ∉ input ∧ '\\' ∉ input ∧
    (input.head? = some '-' → input = ['-'])

section Entries

variable {set : Settings}

theorem mem_entries {line : Entry} : line ∈ entries set ↔
    (∃ text ∈ (hdrLines set).take 8 ++ (hdrLines set).drop 9, line = .fixed text) ∨
      line ∈ envEntries set.env ∨ (∃ cwd ∈ set.cwd, line = .cd cwd) ∨
      ∃ input ∈ set.input, line = .feed input := by
  simp only [entries, List.mem_append, List.mem_map, Option.mem_toList, eq_comm (a := line)]
  constructor
  · rintro ((((⟨text, member, same⟩ | member) | ⟨text, member, same⟩) | cwd) | input)
    · exact .inl ⟨text, .inl member, same⟩
    · exact .inr (.inl member)
    · exact .inl ⟨text, .inr member, same⟩
    · exact .inr (.inr (.inl cwd))
    · exact .inr (.inr (.inr input))
  · rintro (⟨text, member | member, same⟩ | member | cwd | input)
    · exact .inl (.inl (.inl (.inl ⟨text, member, same⟩)))
    · exact .inl (.inl (.inr ⟨text, member, same⟩))
    · exact .inl (.inl (.inl (.inr member)))
    · exact .inl (.inr cwd)
    · exact .inr input

theorem mem_envEntries {env : List (Text × Text)} {line : Entry} (member : line ∈ envEntries env) :
    line = .fixed (hdrEnv []) ∨ ∃ pair ∈ env, line = .exported pair.1 pair.2 := by
  rw [envEntries] at member
  split_ifs at member with empty
  · exact .inl (List.mem_singleton.mp member)
  · obtain ⟨pair, own, same⟩ := List.mem_map.mp member
    exact .inr ⟨pair, own, same.symm⟩

theorem wellFormed_entries (names : ∀ pair ∈ set.env, IsName pair.1) :
    ∀ line ∈ entries set, WellFormed line := by
  intro line member
  rcases mem_entries.mp member with ⟨text, fixed, rfl⟩ | env | ⟨cwd, -, rfl⟩ | ⟨input, -, rfl⟩
  · exact fixedLine_of_mem set text fixed
  · rcases mem_envEntries env with rfl | ⟨pair, own, rfl⟩
    · exact ⟨⟨[], fun _ => rfl⟩, '#', _, rfl, rfl, rfl⟩
    · exact names pair own
  · trivial
  · trivial

theorem feedLast_append {lines more : List Entry} (unfed : ∀ line ∈ lines, ∀ input, line ≠ .feed input)
    (last : FeedLast more) : FeedLast (lines ++ more) := by
  induction lines with
  | nil => exact last
  | cons line lines ih =>
    have tail := ih fun line member => unfed line (List.mem_cons_of_mem _ member)
    cases line with
    | feed input => exact absurd rfl (unfed _ (List.mem_cons_self ..) input)
    | fixed | exported | cd => exact tail

theorem feedLast_entries (set : Settings) : FeedLast (entries set) := by
  rw [entries]
  refine feedLast_append ?_ ?_
  · intro line member input
    simp only [List.mem_append, List.mem_map] at member
    rcases member with ((⟨text, -, rfl⟩ | env) | ⟨text, -, rfl⟩) | ⟨cwd, -, rfl⟩
    · exact nofun
    · rcases mem_envEntries env with rfl | ⟨pair, -, rfl⟩ <;> exact nofun
    · exact nofun
    · exact nofun
  · cases set.input with
    | none => trivial
    | some input => rfl

theorem entries_masked (set : Settings) : entries set.masked = (entries set).map Entry.masked := by
  have env : envEntries set.masked.env = (envEntries set.env).map Entry.masked := by
    by_cases empty : set.env = []
    · simp [envEntries, Settings.masked, empty, Entry.masked]
    · simp [envEntries, Settings.masked, empty, Entry.masked, Function.comp_def]
  have cwd : set.masked.cwd.toList.map Entry.cd = (set.cwd.toList.map Entry.cd).map Entry.masked := by
    rw [Settings.masked]
    cases set.cwd <;> rfl
  have input : set.masked.input.toList.map Entry.feed =
      (set.input.toList.map Entry.feed).map Entry.masked := by
    rw [Settings.masked]
    cases set.input <;> rfl
  rw [entries, entries, env, cwd, input]
  simp only [List.map_append]
  rfl

theorem inert_iff (set : Settings) : Inert set ↔ ∀ line ∈ entries set, InertEntry (!set.noglob) line := by
  constructor
  · intro inert line member
    rcases mem_entries.mp member with ⟨text, -, rfl⟩ | env | ⟨cwd, own, rfl⟩ | ⟨input, own, rfl⟩
    · trivial
    · rcases mem_envEntries env with rfl | ⟨pair, own, rfl⟩
      · trivial
      · exact inert.env pair own
    · exact inert.cwd cwd own
    · exact inert.input input own
  · intro inert
    refine ⟨fun pair own => ?_, fun cwd own => ?_, fun input own => ?_⟩
    · have some : set.env ≠ [] := List.ne_nil_of_mem own
      refine inert (.exported pair.1 pair.2) (mem_entries.mpr (.inr (.inl ?_)))
      rw [envEntries, if_neg some]
      exact List.mem_map.mpr ⟨pair, own, rfl⟩
    · exact inert (.cd cwd) (mem_entries.mpr (.inr (.inr (.inl ⟨cwd, own, rfl⟩))))
    · exact inert (.feed input) (mem_entries.mpr (.inr (.inr (.inr ⟨input, own, rfl⟩))))

end Entries

theorem inert_of_isData {set : Settings} (names : ∀ pair ∈ set.env, IsName pair.1)
    (data : IsData set) : Inert set := by
  obtain ⟨lines, lines', reads, -, -, meant⟩ := data ['x']
  rw [header_eq_textOf] at reads
  exact (inert_iff set).mpr
    (inert_of_readLines (wellFormed_entries names) (feedLast_entries set) reads meant)

/-- Every script is the header and a text that does not depend on the values. -/
theorem script_eq_ok_iff {V : Type} (convert : SFormat → Value V → Except FormatError Text)
    {set : Settings} {f text : Text} {args : List (Value V)} :
    script convert set f args = .ok text ↔
      ∃ str, script convert set.masked f args = .ok (header set.masked ++ str) ∧
        text = header set ++ str := by
  have same : line convert set.masked f args = line convert set f args := rfl
  simp only [script, same, bind, Except.bind]
  cases line convert set f args with
  | error e => simp
  | ok line =>
    cases second : F convert line (.string f :: args) with
    | error e => simp [second]
    | ok str => simp [second, pure, Except.pure, eq_comm]

/-- Exactly which values are data. -/
theorem isData_iff (set : Settings) (names : ∀ pair ∈ set.env, IsName pair.1) :
    IsData set ↔ Inert set := by
  refine ⟨inert_of_isData names, fun inert str => ?_⟩
  obtain ⟨read, read', reads, reads', same, meant⟩ :=
    readLines_of_inert (wellFormed_entries names) ((inert_iff set).mp inert) str
  rw [header_eq_textOf, header_eq_textOf, entries_masked]
  exact ⟨read, read', reads, reads', same, meant⟩

theorem isData_plain :
    IsData { env := [("A".toList, "b".toList)], cwd := some "/tmp".toList, input := some "test".toList } := by
  refine (isData_iff _ ?_).mpr ⟨?_, ?_, ?_⟩
  · intro pair member
    obtain rfl := List.mem_singleton.mp member
    exact ⟨⟨'A', rfl, by decide⟩, List.all_eq_true.mp rfl⟩
  · intro pair member
    obtain rfl := List.mem_singleton.mp member
    exact ⟨List.all_eq_true.mp rfl, by decide, by decide⟩
  · intro cwd own
    obtain rfl := Option.some.inj own
    exact ⟨by decide, List.all_eq_true.mp rfl, by decide, by decide, by decide, by decide⟩
  · intro input own
    obtain rfl := Option.some.inj own
    exact ⟨by decide, by decide, by decide, by decide⟩

/-- A directory whose name has a `;` ends the `cd` there. -/
theorem semicolon_not_data :
    ¬ ∀ set : Settings, (∀ pair ∈ set.env, IsName pair.1) → IsData set := by
  intro data
  have unnamed : ∀ pair ∈ ({ cwd := some "/tmp; id".toList } : Settings).env, IsName pair.1 := by simp
  have inert := inert_of_isData unnamed (data _ unnamed)
  obtain ⟨-, plain, -⟩ := inert.cwd _ rfl
  exact absurd (plain ';' (by decide)) (by decide)

end OmniaJit.Std
