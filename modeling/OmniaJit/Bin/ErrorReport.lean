import Mathlib.Data.List.Induction
import OmniaJit.Bin.DottedName
import OmniaJit.Lua.FileLines
import OmniaJit.Lua.TableInsert

/-! # The error report of `bin/omnia.lua`

The launcher reads its script line by line, loads and runs it, and turns an error string into a report
with the line it names. Both patterns that take the string apart look for a single digit between two
colons, and both begin with a repetition that goes as far as it can.
-/

namespace OmniaJit.Bin

open OmniaJit.Data OmniaJit.Lua OmniaJit.Lua.LibString

def colon : UInt8 := ':'.toUInt8

/-- What the error handler prints before it exits. -/
inductive Report where
  /-- the warning `bug: Unhandled condition or error string.` with the error string -/
  | unhandled (re : Bytes)
  /-- `fmt.panic("error: %s\n %s |\n %s | %s\n %s |\n", re, sp, ln, line, sp)`, where `sp` are as many blanks as
  `ln` has digits, and the message and the line can be nil -/
  | error (re : Option Bytes) (ln : Bytes) (line : Option Bytes)
deriving DecidableEq

/-- `tonumber(s)` for a string of digits. -/
def tonumber (s : Bytes) : ℕ := s.foldl (fun n c => 10 * n + (c.toNat - '0'.toNat)) 0

/-- The function that `run` makes a handler of. -/
def handler (re : Bytes) (rt : Table Bytes) : Except PatternError Report := do
  match ← firstCapture re (ascii "^.+:([%d]):.*") with
  | none => return .unhandled re
  | some ln =>
    let re ← firstCapture re (ascii "^.+:[%d]:(.*)")
    return .error re ln (rt.get (tonumber ln))

/-- `try_f(fn)`: the results of a call that went well are handed on, and the error goes to `fn`. -/
def try_f {ε α β : Type} (fn : ε → β) : Except ε α → α ⊕ β
  | .ok value => .inl value
  | .error e => .inr (fn e)

/-- `for ln in io.lines(script) do tbl[#tbl + 1] = ln end` -/
def readScript (op : LengthOperator Bytes) (io : Stdio) (script : Bytes) : Table Bytes :=
  (ioLines io script).foldl op.append Table.empty

/-- `table.concat(tbl, "\n")`, for the lines in `tbl`. -/
def scriptText (io : Stdio) (script : Bytes) : Bytes := List.intercalate [newline] (ioLines io script)

variable {Chunk : Type} (op : LengthOperator Bytes) (io : Stdio) (script : Bytes)
  (loadstring : Bytes → Except Bytes Chunk) (pcall : Chunk → Except Bytes Unit)

/-- The end of the launcher, for what `loadstring` makes of the text and what `pcall` of the chunk: the
report, if there is an error. -/
def omnia : Except PatternError (Option Report) :=
  let tbl := readScript op io script
  let report (re : Bytes) := (handler re tbl).map some
  match try_f report (loadstring (scriptText io script)) with
  | .inr result => result
  | .inl chunk =>
    match try_f report (pcall chunk) with
    | .inr result => result
    | .inl _ => .ok none

/-- Loading or running the script fails with this error string. -/
def Fails (re : Bytes) : Prop :=
  loadstring (scriptText io script) = .error re ∨
    ∃ chunk, loadstring (scriptText io script) = .ok chunk ∧ pcall chunk = .error re

variable {op io script loadstring pcall}

theorem omnia_of_fails {re : Bytes} (fails : Fails io script loadstring pcall re) :
    omnia op io script loadstring pcall = (handler re (readScript op io script)).map some := by
  rcases fails with unloaded | ⟨chunk, loaded, raised⟩
  · rw [omnia, unloaded]
    rfl
  · rw [omnia, loaded]
    simp only [try_f, raised]

theorem readScript_isSequence : (readScript op io script).IsSequence (ioLines io script) := by
  have filled (l : List Bytes) : (l.foldl op.append Table.empty).IsSequence l := by
    induction l using List.reverseRecOn with
    | nil => exact Table.isSequence_empty
    | append_singleton l line ih =>
      rw [List.foldl_concat]
      exact op.append_isSequence ih line
  exact filled (ioLines io script)

/-- A digit of `[%d]`. -/
def isDigit (c : UInt8) : Bool := lj_char_isa c LJ_CHAR_DIGIT

/-- A digit between two colons at the start of a text, and what follows. -/
def position : Bytes → Option (UInt8 × Bytes)
  | c :: d :: e :: rest => if c = colon ∧ isDigit d ∧ e = colon then some (d, rest) else none
  | _ => none

section Patterns

variable {src : Bytes}

theorem singlematch_colon (x : UInt8) : singlematch x (ascii ":") = decide (x = colon) := by
  have single : singlematch x (ascii ":") = decide (colon = x) := rfl
  rw [single]
  exact decide_eq_decide.mpr eq_comm

theorem singlematch_digit (x : UInt8) : singlematch x (ascii "[%d]") = isDigit x := by
  have set : singlematch x (ascii "[%d]") = if lj_char_isa x LJ_CHAR_DIGIT then true else false := rfl
  rw [set, isDigit]
  cases lj_char_isa x LJ_CHAR_DIGIT <;> rfl

variable {depth : ℕ} {ms : List Capture} {s rest : Bytes}

theorem matchItems_colon (suffix : NoSuffix rest) : matchItems src depth ms s (colon :: rest) =
    if s.head?.any (· = colon) then matchItems src depth ms s.tail rest else .ok none := by
  have item : FirstItem (colon :: rest) (ascii ":") rest := by
    refine ⟨rfl, ?_⟩
    rw [List.length_cons, Nat.add_sub_cancel_left]
    rfl
  rw [matchItems_one (startsItem_of_notMem (by decide)) item suffix]
  simp only [singlematch_colon]

theorem matchItems_digit (suffix : NoSuffix rest) : matchItems src depth ms s (ascii "[%d]" ++ rest) =
    if s.head?.any isDigit then matchItems src depth ms s.tail rest else .ok none := by
  have item : FirstItem ('['.toUInt8 :: (ascii "%d]" ++ rest)) (ascii "[%d]") rest := by
    refine ⟨rfl, ?_⟩
    have size : ('['.toUInt8 :: (ascii "%d]" ++ rest)).length - rest.length = 4 := by
      rw [List.length_cons, List.length_append]
      exact Nat.sub_eq_of_eq_add (by rw [Nat.add_right_comm]; rfl)
    rw [size]
    rfl
  have whole : ascii "[%d]" ++ rest = '['.toUInt8 :: (ascii "%d]" ++ rest) := rfl
  rw [whole, matchItems_one (startsItem_of_notMem (by decide)) item suffix]
  simp only [singlematch_digit]

/-- `.*` takes everything that is left. -/
theorem matchItems_any (shallow : depth < LJ_MAX_XLEVEL) :
    matchItems src depth ms s (ascii ".*") = .ok (some ([], ms)) := by
  have any : FirstItem ('.'.toUInt8 :: ascii "*") (ascii ".") ('*'.toUInt8 :: []) := ⟨rfl, rfl⟩
  have start : ascii ".*" = '.'.toUInt8 :: ascii "*" := rfl
  rw [start, matchItems_star (by decide) any]
  apply max_expand_all
  · exact fun _ _ => rfl
  · rw [nested_of_lt shallow, matchItems_nil]

/-- `([%d]):.*` -/
theorem matchItems_number (s : Bytes) :
    matchItems src (0 + 1 + 1) [] s ('('.toUInt8 :: (ascii "[%d]" ++ ')'.toUInt8 :: colon :: ascii ".*")) =
      if s.head?.any isDigit ∧ s.tail.head?.any (· = colon) then .ok (some ([], [⟨s, .closed 1⟩])) else .ok none := by
  rw [matchItems_start (by decide), start_capture, if_neg (by decide), nested_of_lt (by decide),
    matchItems_digit (noSuffix_cons (by decide))]
  cases s with
  | nil => rfl
  | cons d s =>
    have unfinished : capture_to_close ([] ++ [⟨d :: s, .unfinished⟩]) = some 0 := rfl
    have behind : NoSuffix (ascii ".*") := by decide
    have one : (d :: s).length - s.length = 1 := by rw [List.length_cons, Nat.add_sub_cancel_left]
    rw [List.head?_cons, Option.any_some, List.tail_cons]
    rcases eq_or_ne (isDigit d) true with digit | other
    · rw [if_pos digit, matchItems_close, end_capture, unfinished]
      dsimp only
      rw [nested_of_lt (by decide), matchItems_colon behind, matchItems_any (by decide), List.nil_append,
        List.modify_zero_cons, one]
      simp only [digit, true_and]
    · rw [if_neg other, if_neg (fun both => other both.1)]

/-- The rest of the first pattern behind the repetition. -/
theorem line_rest (t : Bytes) : (nested (0 + 1) fun depth => matchItems src depth [] t (ascii ":([%d]):.*")) =
    .ok ((position t).map fun (d, rest) => ([], [⟨d :: colon :: rest, .closed 1⟩])) := by
  have start : ascii ":([%d]):.*" = colon :: '('.toUInt8 :: (ascii "[%d]" ++ ')'.toUInt8 :: colon :: ascii ".*") := rfl
  rw [nested_of_lt (by decide), start, matchItems_colon (noSuffix_cons (by decide)), matchItems_number]
  rcases t with _ | ⟨c, _ | ⟨d, _ | ⟨e, rest⟩⟩⟩
  · rfl
  · simp [position]
  · simp [position]
  · simp only [List.head?_cons, Option.any_some, List.tail_cons, decide_eq_true_eq, position]
    rcases eq_or_ne c colon with rfl | other
    · simp only [if_true, true_and]
      split_ifs with number
      · obtain ⟨-, rfl⟩ := number
        rfl
      · rfl
    · rw [if_neg other, if_neg (fun all => other all.1)]
      rfl

/-- `(.*)` at the end of a pattern. -/
theorem matchItems_all (s : Bytes) :
    matchItems src (0 + 1 + 1) [] s (ascii "(.*)") = .ok (some ([], [⟨s, .closed s.length⟩])) := by
  have start : ascii "(.*)" = '('.toUInt8 :: '.'.toUInt8 :: ascii "*)" := rfl
  have any : FirstItem ('.'.toUInt8 :: ascii "*)") (ascii ".") ('*'.toUInt8 :: ascii ")") := ⟨rfl, rfl⟩
  have close : ascii ")" = ')'.toUInt8 :: [] := rfl
  have unfinished : capture_to_close ([] ++ [⟨s, .unfinished⟩]) = some 0 := rfl
  rw [start, matchItems_start (by decide), start_capture, if_neg (by decide), nested_of_lt (by decide),
    matchItems_star (by decide) any]
  apply max_expand_all
  · exact fun _ _ => rfl
  · rw [nested_of_lt (by decide), close, matchItems_close, end_capture, unfinished]
    dsimp only
    rw [nested_of_lt (by decide), matchItems_nil]
    rfl

/-- The rest of the second pattern behind the repetition. -/
theorem message_rest (t : Bytes) : (nested (0 + 1) fun depth => matchItems src depth [] t (ascii ":[%d]:(.*)")) =
    .ok ((position t).map fun (_, rest) => ([], [⟨rest, .closed rest.length⟩])) := by
  have start : ascii ":[%d]:(.*)" = colon :: (ascii "[%d]" ++ colon :: ascii "(.*)") := rfl
  have set : NoSuffix (ascii "[%d]" ++ colon :: ascii "(.*)") := by decide
  have group : NoSuffix (ascii "(.*)") := by decide
  rw [nested_of_lt (by decide), start, matchItems_colon set, matchItems_digit (noSuffix_cons (by decide)),
    matchItems_colon group, matchItems_all]
  rcases t with _ | ⟨c, _ | ⟨d, _ | ⟨e, rest⟩⟩⟩
  · rfl
  · simp [position]
  · simp [position]
  · simp only [List.head?_cons, Option.any_some, List.tail_cons, decide_eq_true_eq, position]
    split_ifs <;> first | rfl | tauto

end Patterns

section Handler

/-- The first capture of a pattern with an anchor. -/
theorem firstCapture_anchored {s p : Bytes} (plain : cstring p = p) (captured : Option (Bytes × ℕ))
    (matched : matchAt s s p = .ok (captured.map fun (init, len) => ([], [⟨init, .closed len⟩]))) :
    firstCapture s ('^'.toUInt8 :: p) = .ok (captured.map fun (init, len) => init.take len) := by
  have seen : cstring ('^'.toUInt8 :: p) = '^'.toUInt8 :: p := by
    rw [cstring, List.takeWhile_cons_of_pos (by decide)]
    exact congrArg _ plain
  have whole : offset s 1 = 0 := rfl
  rw [firstCapture, string_match, whole]
  simp only [gt_iff_lt, Nat.not_lt_zero, if_false, searchPattern, seen, List.head?_cons, if_true, List.tail_cons,
    List.drop_zero]
  cases captured with
  | none => cases s <;> rw [search, matched] <;> rfl
  | some capture => cases s <;> rw [search, matched] <;> rfl

/-- Both patterns find the last digit between two colons, if something stands before it. -/
theorem handler_eq (re : Bytes) (rt : Table Bytes) : handler re rt = .ok
    (match lastSome position re.tail with
    | none => .unhandled re
    | some (d, rest) => .error (some rest) [d] (rt.get (tonumber [d]))) := by
  have line := @firstCapture_anchored re (ascii ".+" ++ ascii ":([%d]):.*") (by decide)
    ((lastSome position re.tail).map fun (d, rest) => (d :: colon :: rest, 1))
    (by rw [Option.map_map]; exact matchAt_greedy position _ line_rest rfl re)
  have message := @firstCapture_anchored re (ascii ".+" ++ ascii ":[%d]:(.*)") (by decide)
    ((lastSome position re.tail).map fun (_, rest) => (rest, rest.length))
    (by rw [Option.map_map]; exact matchAt_greedy position _ message_rest rfl re)
  have first : '^'.toUInt8 :: (ascii ".+" ++ ascii ":([%d]):.*") = ascii "^.+:([%d]):.*" := rfl
  have second : '^'.toUInt8 :: (ascii ".+" ++ ascii ":[%d]:(.*)") = ascii "^.+:[%d]:(.*)" := rfl
  rw [first] at line
  rw [second] at message
  rw [handler, line, message]
  rcases lastSome position re.tail with _ | ⟨d, rest⟩
  · rfl
  · simp [bind, Except.bind, pure, Except.pure]

end Handler

section Positions

/-- Somewhere in a text a single digit stands between two colons. -/
def HasPosition (s : Bytes) : Prop := ∃ d rest, isDigit d ∧ colon :: d :: colon :: rest <:+ s

theorem position_eq_some_iff {t rest : Bytes} {d : UInt8} :
    position t = some (d, rest) ↔ isDigit d ∧ t = colon :: d :: colon :: rest := by
  rcases t with _ | ⟨c, _ | ⟨d', _ | ⟨e, rest'⟩⟩⟩
  · simp [position]
  · simp [position]
  · simp [position]
  · rw [position]
    split_ifs with found
    · obtain ⟨rfl, digit, rfl⟩ := found
      constructor
      · rintro ⟨⟩
        exact ⟨digit, rfl⟩
      · rintro ⟨-, same⟩
        cases same
        rfl
    · refine iff_of_false (by simp) ?_
      rintro ⟨digit, same⟩
      cases same
      exact found ⟨rfl, digit, rfl⟩

theorem position_of_ne {c : UInt8} (other : c ≠ colon) (s : Bytes) : position (c :: s) = none := by
  rw [Option.eq_none_iff_forall_ne_some]
  rintro ⟨d, rest⟩ found
  exact other (List.cons.inj (position_eq_some_iff.mp found).2).1

theorem hasPosition_iff {s : Bytes} : ¬ HasPosition s ↔ ∀ t, t <:+ s → position t = none := by
  constructor
  · intro none t suffix
    by_contra some
    obtain ⟨⟨d, rest⟩, found⟩ := Option.ne_none_iff_exists'.mp some
    obtain ⟨digit, rfl⟩ := position_eq_some_iff.mp found
    exact none ⟨d, rest, digit, suffix⟩
  · rintro none ⟨d, rest, digit, suffix⟩
    have found := none _ suffix
    rw [position_eq_some_iff.mpr ⟨digit, rfl⟩] at found
    cases found

theorem hasPosition_cons {c : UInt8} {s : Bytes} (other : position (c :: s) = none) :
    HasPosition (c :: s) ↔ HasPosition s := by
  rw [← not_iff_not, hasPosition_iff, hasPosition_iff]
  constructor
  · exact fun none t suffix => none t (suffix.trans (List.suffix_cons c s))
  · intro none t suffix
    rcases List.suffix_cons_iff.mp suffix with rfl | behind
    · exact other
    · exact none t behind

/-- The last position of a text. -/
theorem lastPosition_iff {s rest : Bytes} {d : UInt8} : lastSome position s = some (d, rest) ↔
    isDigit d ∧ colon :: d :: colon :: rest <:+ s ∧ ¬ HasPosition (colon :: rest) := by
  have inner (digit : isDigit d) : position (d :: colon :: rest) = none := by
    rcases rest with _ | ⟨e, rest⟩
    · rfl
    · rw [position, if_neg]
      rintro ⟨rfl, -⟩
      exact absurd digit (by decide)
  rw [lastSome_eq_some_iff]
  constructor
  · rintro ⟨t, suffix, found, last⟩
    obtain ⟨digit, rfl⟩ := position_eq_some_iff.mp found
    refine ⟨digit, suffix, hasPosition_iff.mpr fun u behind => last u ?_ ?_⟩
    · exact behind.trans ((List.suffix_cons d _).trans (List.suffix_cons colon _))
    · rintro rfl
      have short := behind.length_le
      simp only [List.length_cons] at short
      omega
  · rintro ⟨digit, suffix, none⟩
    refine ⟨_, suffix, position_eq_some_iff.mpr ⟨digit, rfl⟩, fun u behind other => ?_⟩
    have later := (List.suffix_cons_iff.mp behind).resolve_left other
    rcases List.suffix_cons_iff.mp later with rfl | last
    · exact inner digit
    · exact hasPosition_iff.mp none u last

end Positions

/-- `N` in decimal. -/
def decimal (n : ℕ) : Bytes := (Nat.toDigits 10 n).map Char.toUInt8

/-- `chunkname .. ':' .. N .. ': ' .. m` -/
def errorString (chunkname : Bytes) (n : ℕ) (m : Bytes) : Bytes :=
  chunkname ++ colon :: (decimal n ++ ascii ": " ++ m)

theorem decimal_of_lt {n : ℕ} (single : n < 10) : ∃ d, decimal n = [d] ∧ isDigit d ∧ tonumber [d] = n := by
  have digits : ∀ n < 10, isDigit (Nat.digitChar n).toUInt8 ∧ tonumber [(Nat.digitChar n).toUInt8] = n := by
    decide +kernel
  refine ⟨(Nat.digitChar n).toUInt8, ?_, digits n single⟩
  rw [decimal, Nat.toDigits_of_lt_base single, List.map_singleton]

theorem lt_of_decimal {n : ℕ} {d : UInt8} (single : decimal n = [d]) : n < 10 := by
  have short : (Nat.toDigits 10 n).length ≤ 1 := by
    rw [← List.length_map Char.toUInt8, ← decimal, single, List.length_singleton]
  simpa using (Nat.length_toDigits_le_iff (by decide) Nat.one_pos).mp short

section Report

variable {chunkname m text : Bytes} {n : ℕ}

/-- What the handler finds in an error string. -/
theorem lastPosition_errorString {d : UInt8} (number : decimal n = [d]) (digit : isDigit d) :
    lastSome position (errorString chunkname n m).tail = some (d, ascii " " ++ m) ↔
      chunkname ≠ [] ∧ ¬ HasPosition m := by
  have inner : HasPosition (colon :: ascii " " ++ m) ↔ HasPosition m := by
    have blank : colon :: ascii " " ++ m = colon :: ' '.toUInt8 :: m := rfl
    have unnumbered : position (colon :: ' '.toUInt8 :: m) = none := by
      cases m <;> rfl
    rw [blank, hasPosition_cons unnumbered, hasPosition_cons (position_of_ne (by decide) m)]
  have whole : errorString chunkname n m = chunkname ++ colon :: d :: colon :: (ascii " " ++ m) := by
    rw [errorString, number]
    rfl
  rw [lastPosition_iff, and_iff_right digit, ← List.cons_append, inner, whole]
  refine and_congr_left fun _ => ?_
  cases chunkname with
  | nil =>
    refine iff_of_false (fun suffix => ?_) (by simp)
    exact absurd suffix.length_le (by simp)
  | cons c chunkname => exact iff_of_true (List.suffix_append ..) (List.cons_ne_nil c chunkname)

/-- The report has the number and the text of the line and the message exactly if the number has one digit, the
chunk name is not empty, no digit stands between two colons in the message, and the line has been read. Without
a NUL byte in the script every line is read. -/
theorem omnia_reports_iff (positive : 1 ≤ n) (inside : (lineTexts script)[n - 1]? = some text)
    (fails : Fails io script loadstring pcall (errorString chunkname n m)) :
    (omnia op io script loadstring pcall = .ok (some (.error (some (ascii " " ++ m)) (decimal n) (some text))) ↔
      n ≤ 9 ∧ chunkname ≠ [] ∧ ¬ HasPosition m ∧ (ioLines io script)[n - 1]? = some text) ∧
    (0 ∉ script → (ioLines io script)[n - 1]? = some text) := by
  have line : (readScript op io script).get n = (ioLines io script)[n - 1]? := by
    rw [readScript_isSequence, if_pos (by omega), show ((n : ℤ) - 1).toNat = n - 1 by omega]
  refine ⟨?_, fun plain => by rwa [ioLines_text io plain]⟩
  rw [omnia_of_fails fails, handler_eq]
  constructor
  · intro reported
    rcases last : lastSome position (errorString chunkname n m).tail with _ | ⟨d, rest⟩
    · rw [last] at reported
      cases reported
    · simp only [last, Except.map, Except.ok.injEq, Option.some.injEq, Report.error.injEq] at reported
      obtain ⟨rfl, number, read⟩ := reported
      have single := lt_of_decimal number.symm
      obtain ⟨d', number', digit, value⟩ := decimal_of_lt single
      obtain rfl := List.singleton_inj.mp (number.trans number')
      obtain ⟨named, clear⟩ := (lastPosition_errorString number' digit).mp last
      rw [value, line] at read
      exact ⟨by omega, named, clear, read⟩
  · rintro ⟨single, named, clear, read⟩
    obtain ⟨d, number, digit, value⟩ := decimal_of_lt (show n < 10 by omega)
    rw [(lastPosition_errorString number digit).mpr ⟨named, clear⟩]
    simp only [Except.map, value, line, read, number]

end Report

/-- An error in the second line. -/
theorem omnia_reports_iff_second :
    omnia .first ⟨8192, by decide⟩ (ascii "x = 1\ny = = 2\n")
        (fun _ => .error (errorString (ascii "s") 2 (ascii "unexpected symbol near '='"))) (fun () => .ok ()) =
      .ok (some (.error (some (ascii " " ++ ascii "unexpected symbol near '='")) (decimal 2)
        (some (ascii "y = = 2")))) := by
  refine (omnia_reports_iff ?positive ?inside (.inl rfl)).1.mpr ⟨by decide, by decide, ?message, ?read⟩
  case positive => decide
  case inside => decide +kernel
  case message => exact hasPosition_iff.mpr (lastSome_eq_none_iff.mp (by decide +kernel))
  case read =>
    rw [ioLines_text _ (by decide)]
    decide +kernel

/-- An error in the tenth line. -/
theorem tenth_line_unhandled :
    Fails ⟨8192, by decide⟩ (List.replicate 10 newline)
        (fun _ => .error (errorString (ascii "s") 10 (ascii "bad"))) (fun () => .ok ())
        (errorString (ascii "s") 10 (ascii "bad")) ∧
      (lineTexts (List.replicate 10 newline))[9]? = some [] ∧
      omnia .first ⟨8192, by decide⟩ (List.replicate 10 newline)
        (fun _ => .error (errorString (ascii "s") 10 (ascii "bad"))) (fun () => .ok ()) =
          .ok (some (.unhandled (errorString (ascii "s") 10 (ascii "bad")))) := by
  have fails : Fails ⟨8192, by decide⟩ (List.replicate 10 newline)
      (fun _ => .error (errorString (ascii "s") 10 (ascii "bad"))) (fun () => .ok ())
      (errorString (ascii "s") 10 (ascii "bad")) := .inl rfl
  have nowhere : lastSome position (errorString (ascii "s") 10 (ascii "bad")).tail = none := by decide +kernel
  refine ⟨fails, by decide +kernel, ?_⟩
  rw [omnia_of_fails fails, handler_eq, nowhere]
  rfl

end OmniaJit.Bin
