import OmniaJit.Lua.LibString

/-! # The SQL sanitisers

`escape_sql` doubles the quotes of a string, puts quotes around it and then takes seven control bytes
out of the result. `clean_sql` is to take the same bytes out, but its pattern begins with the NUL byte
and so matches nothing but the empty string.
-/

namespace OmniaJit.Std

open OmniaJit.Lua OmniaJit.Lua.LibString

def quote : UInt8 := '\''.toUInt8

/-- `string.char(0,9,10,11,12,13,14)` -/
def control : Bytes := [0, 9, 10, 11, 12, 13, 14]

/-- `v` without the control bytes. -/
def strip (v : Bytes) : Bytes := v.filter fun c => !control.contains c

/-- `v` with every quote doubled. -/
def double (v : Bytes) : Bytes := v.flatMap fun c => if c = quote then [quote, quote] else [c]

/-- The argument of `escape_sql`, by its type. -/
inductive SqlValue where
  | string (v : Bytes)
  | boolean (v : Bool)
  | other

/-- The table of the second substitution: the empty string for each of the seven bytes. -/
def deletions : CaptureValue → Option (Option Bytes)
  | .text [c] => if control.contains c then some (some []) else none
  | _ => none

/-- `util.escape_sql(v)`, which returns nothing for a value of another type. -/
def escape_sql : SqlValue → Except PatternError (Option Bytes)
  | .string v => do
    let (doubled, _) ← gsub v (ascii "'") (.string (ascii "''")) none
    let s := ascii "'" ++ doubled ++ ascii "'"
    let (s, _) ← gsub s (ascii ".") (.table deletions) none
    return some s
  | .boolean v => return some (ascii (if v then "TRUE" else "FALSE"))
  | .other => return none

/-- `util.clean_sql(s)` -/
def clean_sql (s : Bytes) : Except PatternError Bytes := do
  let (s, _) ← gsub s control (.string []) none
  return s

section Lexer

/-- A string literal of SQL from behind its opening quote: its value, and the text behind it. -/
def literalBody : Bytes → Option (Bytes × Bytes)
  | [] => none
  | c :: s =>
    if c = quote then
      match s with
      | [] => some ([], [])
      | d :: rest =>
        if d = quote then (literalBody rest).map fun (value, t) => (quote :: value, t) else some ([], s)
    else (literalBody s).map fun (value, t) => (c :: value, t)

/-- The string literal at the start of a text. -/
def literal : Bytes → Option (Bytes × Bytes)
  | [] => none
  | c :: s => if c = quote then literalBody s else none

theorem literalBody_cons_of_ne {c : UInt8} (other : c ≠ quote) (s : Bytes) :
    literalBody (c :: s) = (literalBody s).map fun (value, t) => (c :: value, t) := by
  cases s <;> simp [literalBody, other]

/-- The literal ends where the quoted text ends, whatever text it stands for. -/
theorem literalBody_double {t : Bytes} (separate : t.head? ≠ some quote) (v : Bytes) :
    literalBody (double v ++ quote :: t) = some (v, t) := by
  induction v with
  | nil =>
    cases t with
    | nil => rfl
    | cons d rest =>
      have other : d ≠ quote := fun same => separate (congrArg some same)
      rw [double, List.flatMap_nil, List.nil_append, literalBody, if_pos rfl]
      dsimp only
      rw [if_neg other]
  | cons c v ih =>
    have split : double (c :: v) = (if c = quote then [quote, quote] else [c]) ++ double v := List.flatMap_cons
    rw [split]
    rcases eq_or_ne c quote with rfl | other
    · rw [if_pos rfl, List.append_assoc, List.cons_append, List.cons_append, literalBody, if_pos rfl]
      dsimp only
      rw [if_pos rfl, List.nil_append, ih]
      rfl
    · rw [if_neg other, List.append_assoc, List.singleton_append, literalBody_cons_of_ne other, ih]
      rfl

end Lexer

section Substitutions

theorem strip_append (s t : Bytes) : strip (s ++ t) = strip s ++ strip t := List.filter_append ..

theorem strip_eq_flatMap (s : Bytes) :
    strip s = s.flatMap fun c => if !control.contains c then [c] else [] := by
  induction s with
  | nil => rfl
  | cons c s ih =>
    rw [strip, List.filter_cons, List.flatMap_cons, ← ih]
    split_ifs <;> rfl

theorem double_append (v w : Bytes) : double (v ++ w) = double v ++ double w := List.flatMap_append

/-- Quotes are no control bytes, so it does not matter which substitution comes first. -/
theorem strip_double (v : Bytes) : strip (double v) = double (strip v) := by
  induction v with
  | nil => rfl
  | cons c v ih =>
    have single : strip (double [c]) = double (strip [c]) := by
      rcases eq_or_ne c quote with rfl | other
      · rfl
      · have alone : double [c] = [c] := by simp [double, other]
        rw [alone, strip, List.filter_singleton]
        cases control.contains c
        · exact alone.symm
        · rfl
    rw [← List.singleton_append, double_append, strip_append, strip_append, double_append, single, ih]

theorem matchesOne_quote : MatchesOne (ascii "'") fun c => quote = c :=
  @matchesOne_item quote [] (by decide) rfl

theorem matchesOne_any : MatchesOne (ascii ".") fun _ => true :=
  @matchesOne_item '.'.toUInt8 [] (by decide) rfl

theorem gsub_quote (v : Bytes) :
    gsub v (ascii "'") (.string (ascii "''")) none = .ok (double v, v.countP fun c => quote = c) := by
  rw [@gsub_item _ _ _ (fun _ => [quote, quote]) matchesOne_quote (by decide) (by decide) (fun _ _ _ => rfl)]
  congr 2
  apply List.flatMap_congr
  intro c _
  rcases eq_or_ne c quote with rfl | other
  · rfl
  · rw [if_neg other, if_neg (by simpa using other.symm)]

theorem gsub_deletions (s : Bytes) : gsub s (ascii ".") (.table deletions) none = .ok (strip s, s.length) := by
  have added (subject : Bytes) (c : UInt8) : add_value subject [] [c] (.table deletions) =
      .ok (if !control.contains c then [c] else []) := by
    rw [add_value_table, deletions]
    cases control.contains c <;> rfl
  rw [gsub_item matchesOne_any (by decide) (by decide) (fun subject c _ => added subject c),
    List.countP_true, strip_eq_flatMap]
  rfl

theorem escape_sql_string (v : Bytes) :
    escape_sql (.string v) = .ok (some (quote :: double (strip v) ++ [quote])) := by
  have stripped : strip (ascii "'" ++ double v ++ ascii "'") = quote :: double (strip v) ++ [quote] := by
    rw [strip_append, strip_append, strip_double]
    rfl
  rw [escape_sql, gsub_quote]
  simp only [bind, Except.bind, pure, Except.pure, gsub_deletions, stripped]

theorem clean_sql_eq (v : Bytes) : clean_sql v = .ok v := by
  rw [clean_sql, gsub_empty (by decide)]
  rfl

end Substitutions

/-- The result is one string literal, whatever follows it that is not another quote. Its value is the
string without the control bytes. -/
theorem escape_sql_literal (v : Bytes) {t : Bytes} (separate : t.head? ≠ some quote) :
    ∃ s, escape_sql (.string v) = .ok (some s) ∧ literal (s ++ t) = some (strip v, t) := by
  refine ⟨_, escape_sql_string v, ?_⟩
  rw [List.append_assoc, List.cons_append, literal, if_pos rfl, List.singleton_append]
  exact literalBody_double separate (strip v)

/-- A quote, a tab and another quote are two quotes, and the text goes on behind the literal. -/
theorem escape_sql_literal_tab :
    ∃ s, escape_sql (.string (ascii "'\t'")) = .ok (some s) ∧
      literal (s ++ ascii ";") = some (ascii "''", ascii ";") :=
  escape_sql_literal (ascii "'\t'") (by decide)

/-- `clean_sql` takes the control bytes out, and `escape_sql` is the quoted result of it, exactly for the
strings that have none of them. -/
theorem clean_sql_strips_iff (v : Bytes) :
    (clean_sql v = .ok (strip v) ∧
      escape_sql (.string v) = (clean_sql v).map fun s => some (quote :: double s ++ [quote])) ↔
    ∀ c ∈ v, c ∉ control := by
  have plain : strip v = v ↔ ∀ c ∈ v, c ∉ control := by
    rw [strip, List.filter_eq_self]
    simp only [Bool.not_eq_true', List.contains_eq_mem, decide_eq_false_iff_not]
  rw [clean_sql_eq, escape_sql_string, ← plain]
  constructor
  · rintro ⟨stripped, -⟩
    exact (Except.ok.inj stripped).symm
  · intro stripped
    rw [stripped]
    exact ⟨rfl, rfl⟩

/-- A tab stays in the string. -/
theorem clean_sql_tab : ¬ (clean_sql [9] = .ok (strip [9]) ∧
    escape_sql (.string [9]) = (clean_sql [9]).map fun s => some (quote :: double s ++ [quote])) := by
  rintro ⟨stripped, -⟩
  rw [clean_sql_eq] at stripped
  exact absurd stripped (by decide)

end OmniaJit.Std
