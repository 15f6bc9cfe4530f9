import OmniaJit.Posix.ShellLine

/-! # What a utility receives

The value of a word as an argument, as an operand and as an assignment, and the output of `printf`
for a format without arguments. Where the value depends on more than the text, or is not specified,
there is none.
-/

namespace OmniaJit.Posix.Shell

section Values

/-- A `[` that starts a bracket expression: it is closed before the next slash. -/
def closesBracket (pieces : List Piece) : Bool :=
  match if pieces.head? = some (.bare '!') then pieces.tail else pieces with
  | [] => false
  | first :: rest =>
      decide (first.char ≠ '/') && decide (.bare ']' ∈ rest.takeWhile fun piece => piece.char ≠ '/')

/-- The word is a pattern for pathname expansion. -/
def hasPattern : List Piece → Bool
  | [] => false
  | piece :: rest =>
      piece = .bare '*' || piece = .bare '?' || (piece = .bare '[' && closesBracket rest) ||
        hasPattern rest

/-- The word starts with a tilde-prefix. -/
def startsTilde (pieces : List Piece) : Bool := pieces.head? = some (.bare '~')

/-- There is a tilde-prefix after a colon. -/
def tildeAfterColon : List Piece → Bool
  | [] => false
  | piece :: rest => (piece = .bare ':' && startsTilde rest) || tildeAfterColon rest

/-- The argument a word becomes, if the word alone decides it. -/
def argument (globbing : Bool) (pieces : List Piece) : Option (List Char) :=
  if pieces.any Piece.expands || startsTilde pieces || (globbing && hasPattern pieces) then none
  else some (chars pieces)

/-- An argument is an option if it starts with a `-` that is not all of it. -/
def operand (argument : List Char) : Option (List Char) :=
  if argument.head? = some '-' ∧ argument ≠ ['-'] then none else some argument

/-- The name and the value that a word assigns as the operand of `export`, if the word alone
decides them. -/
def assignment (pieces : List Piece) : Option (List Char × List Char) :=
  match pieces.dropWhile (· ≠ .bare '=') with
  | [] => none
  | _ :: value =>
      if pieces.any Piece.expands || startsTilde value || tildeAfterColon value then none
      else some (chars (pieces.takeWhile (· ≠ .bare '=')), chars value)

theorem literal_iff {pieces : List Piece} : Literal pieces ↔ pieces.any Piece.expands = false := by
  simp [Literal]

theorem argument_eq_some {globbing : Bool} {pieces : List Piece} {value : List Char}
    (known : argument globbing pieces = some value) :
    Literal pieces ∧ chars pieces = value ∧ startsTilde pieces = false ∧
      (globbing && hasPattern pieces) = false := by
  simp only [argument] at known
  split_ifs at known with depends
  simp only [Bool.or_eq_true, not_or, Bool.not_eq_true] at depends
  exact ⟨literal_iff.mpr depends.1.1, Option.some.inj known, depends.1.2, depends.2⟩

theorem operand_eq_some {argument value : List Char} (known : operand argument = some value) :
    argument = value ∧ (value.head? = some '-' → value = ['-']) := by
  simp only [operand] at known
  split_ifs at known with option
  obtain rfl := Option.some.inj known
  exact ⟨rfl, fun dash => by_contra fun more => option ⟨dash, more⟩⟩

theorem assignment_eq_some {pieces : List Piece} {name value : List Char}
    (known : assignment pieces = some (name, value)) :
    Literal pieces ∧ chars pieces = name ++ '=' :: value := by
  simp only [assignment] at known
  split at known
  · contradiction
  · rename_i equals rest found
    split_ifs at known with depends
    simp only [Bool.or_eq_true, not_or, Bool.not_eq_true] at depends
    obtain ⟨rfl, rfl⟩ := Prod.mk.inj (Option.some.inj known)
    have sign : equals = .bare '=' := by
      have stopped := List.head?_dropWhile_not (fun piece : Piece => decide (piece ≠ .bare '=')) pieces
      rw [found] at stopped
      simpa using stopped
    refine ⟨literal_iff.mpr depends.1.1, ?_⟩
    conv_lhs => rw [← List.takeWhile_append_dropWhile (p := (· ≠ Piece.bare '=')) (l := pieces)]
    rw [found, chars_append, sign]
    rfl

/-- A plainly written assignment. -/
theorem assignment_bare {name value : List Char} (plain : '=' ∉ name) :
    assignment ((name ++ '=' :: value).map .bare) =
      if startsTilde (value.map .bare) || tildeAfterColon (value.map .bare) then none
      else some (name, value) := by
  have passed : ∀ piece ∈ name.map Piece.bare, decide (piece ≠ .bare '=') := by
    intro piece member
    obtain ⟨c, inName, rfl⟩ := List.mem_map.mp member
    simp only [ne_eq, Piece.bare.injEq, decide_not, Bool.not_eq_true', decide_eq_false_iff_not]
    rintro rfl
    exact plain inName
  have literal : ((name ++ '=' :: value).map Piece.bare).any Piece.expands = false := by
    simp [Piece.expands]
  rw [assignment, literal, List.map_append, List.map_cons, List.dropWhile_append_of_pos passed,
    List.takeWhile_append_of_pos passed]
  simp

theorem argument_bare (globbing : Bool) (text : List Char) :
    argument globbing (text.map .bare) =
      if startsTilde (text.map .bare) || (globbing && hasPattern (text.map .bare)) then none
      else some text := by
  have literal : (text.map Piece.bare).any Piece.expands = false := by simp [Piece.expands]
  rw [argument, literal, Bool.false_or, chars_bare]

theorem hasPattern_quoted (text : List Char) : hasPattern (text.map .quoted) = false := by
  induction text with
  | nil => rfl
  | cons c text ih => simp [hasPattern, ih]

/-- A quoted word is its text. -/
theorem argument_quoted (globbing : Bool) (text : List Char) :
    argument globbing (text.map .quoted) = some text := by
  have literal : (text.map Piece.quoted).any Piece.expands = false := by simp [Piece.expands]
  have untilded : startsTilde (text.map .quoted) = false := by
    cases text <;> simp [startsTilde]
  rw [argument, literal, untilded, hasPattern_quoted, chars_quoted]
  simp

end Values

section Printf

def isOctalDigit (c : Char) : Bool := c ∈ "01234567".toList

def isDecimalDigit (c : Char) : Bool := c ∈ "0123456789".toList

/-- The value of a digit. -/
def digitValue (c : Char) : ℕ := c.toNat - 48

def number (digits : List Char) : ℕ := digits.foldl (fun n c => 10 * n + digitValue c) 0

def isFlag (c : Char) : Bool := c ∈ ['-', '+', ' ', '#', '0']

/-- The escape sequences of a format other than the octal ones. -/
def escapeChar : Char → Option Char
  | '\\' => some '\\'
  | 'a' => some '\x07'
  | 'b' => some '\x08'
  | 'f' => some '\x0c'
  | 'n' => some '\n'
  | 'r' => some '\r'
  | 't' => some '\t'
  | 'v' => some '\x0b'
  | _ => none

/-- A converted value in its field: spaces before it, after it with the flag `-`, or zeros between
sign and digits. -/
def pad (flags : List Char) (width : ℕ) (zeros : Bool) (sign digits : List Char) : List Char :=
  let room := width - (sign.length + digits.length)
  if '-' ∈ flags then sign ++ digits ++ List.replicate room ' '
  else if zeros then sign ++ List.replicate room '0' ++ digits
  else List.replicate room ' ' ++ sign ++ digits

/-- The conversion `%spec c` without an argument: a null string, or zero. -/
def missing (spec : List Char) (c : Char) : Option (List Char) :=
  let flags := spec.takeWhile isFlag
  let width := number ((spec.dropWhile isFlag).takeWhile isDecimalDigit)
  let precision : Option (Option ℕ) :=
    match (spec.dropWhile isFlag).dropWhile isDecimalDigit with
    | [] => some none
    | '.' :: digits => if digits.all isDecimalDigit then some (some (number digits)) else none
    | _ => none
  match precision with
  | none => none
  | some precision =>
    let digits := List.replicate (precision.getD 1) '0'
    let zeros := decide ('0' ∈ flags ∧ precision = none)
    let sign := if '+' ∈ flags then ['+'] else if ' ' ∈ flags then [' '] else []
    if c = '%' then if spec = [] then some ['%'] else none
    else if c = 's' ∨ c = 'b' then some (pad flags width false [] [])
    else if c = 'd' ∨ c = 'i' then some (pad flags width zeros sign digits)
    else if c = 'u' ∨ c = 'x' ∨ c = 'X' then some (pad flags width zeros [] digits)
    else if c = 'o' then
      some (pad flags width zeros [] (if '#' ∈ flags ∧ digits = [] then ['0'] else digits))
    else none

/-- What has been read of a format since its last complete part. -/
inductive Format where
  | text
  | escape
  | octal (value count : ℕ)
  | conversion (spec : List Char)

/-- A character of a format outside of escapes and conversions. -/
def Format.literal (c : Char) : List Char × Format :=
  if c = '%' then ([], .conversion [])
  else if c = '\\' then ([], .escape)
  else ([c], .text)

def octalChar (value : ℕ) : Char := Char.ofNat (value % 256)

/-- The output of one more character of a format. -/
def Format.step (state : Format) (c : Char) : Option (List Char × Format) :=
  match state with
  | .text => some (literal c)
  | .escape =>
      if isOctalDigit c then some ([], .octal (digitValue c) 1)
      else (escapeChar c).map fun d => ([d], .text)
  | .octal value count =>
      if isOctalDigit c ∧ count < 3 then some ([], .octal (8 * value + digitValue c) (count + 1))
      else some (octalChar value :: (literal c).1, (literal c).2)
  | .conversion spec =>
      if isFlag c || isDecimalDigit c || c = '.' then some ([], .conversion (spec ++ [c]))
      else (missing spec c).map fun out => (out, .text)

def Format.finish : Format → Option (List Char)
  | .text => some []
  | .octal value _ => some [octalChar value]
  | _ => none

def Format.output (state : Format) : List Char → Option (List Char)
  | [] => state.finish
  | c :: format =>
    match state.step c with
    | none => none
    | some (out, next) => (next.output format).map (out ++ ·)

/-- The output of `printf format`, if it is specified. -/
def printf (format : List Char) : Option (List Char) := Format.output .text format

example : printf "a%%b\\0451%3d%s|".toList = some "a%b%1  0|".toList := by decide

theorem printf_of_plain {format : List Char} (plain : '%' ∉ format ∧ '\\' ∉ format) :
    printf format = some format := by
  induction format with
  | nil => rfl
  | cons c format ih =>
    simp only [List.mem_cons, not_or] at plain
    have rest : Format.output .text format = some format := ih ⟨plain.1.2, plain.2.2⟩
    simp [printf, Format.output, Format.step, Format.literal, Ne.symm plain.1.1, Ne.symm plain.2.1,
      rest]

/-- What a format pays for its escapes and conversions: one for each character that starts one,
and for the quotes of the shell, which an escape can produce; and the digits that make an octal
number positive. -/
def cost (c : Char) : ℕ := if c ∈ "%\\'\"1234567".toList then 1 else 0

theorem cost_le_one (c : Char) : cost c ≤ 1 := by
  unfold cost
  split_ifs <;> omega

theorem cost_quote (c : Char) (quote : isQuote c) : 0 < cost c := by
  simp only [isQuote, List.mem_cons, List.not_mem_nil, or_false, decide_eq_true_eq] at quote
  rcases quote with rfl | rfl | rfl <;> decide

/-- What is left of the cost of a part that has not produced its output. -/
def Format.credit : Format → ℕ
  | .octal value _ => if value = 0 then 0 else 1
  | _ => 0

theorem cost_octalChar_le (value count : ℕ) :
    cost (octalChar value) ≤ Format.credit (.octal value count) := by
  by_cases zero : value = 0
  · subst zero
    exact Nat.le_of_eq rfl
  · simpa [Format.credit, zero] using cost_le_one _

theorem cost_of_digit {c : Char} (digit : c ∈ "01234567".toList) :
    digitValue c ≠ 0 → cost c = 1 := by
  have all : "01234567".toList.all (fun d => digitValue d = 0 || cost d = 1) = true := rfl
  intro positive
  simpa [positive] using List.all_eq_true.mp all c digit

theorem credit_octal_le {c : Char} (digit : isOctalDigit c) (value count count' : ℕ) :
    Format.credit (.octal (8 * value + digitValue c) count') ≤
      cost c + Format.credit (.octal value count) := by
  have paid := cost_of_digit (c := c) (by simpa [isOctalDigit] using digit)
  simp only [Format.credit]
  split_ifs <;> omega

theorem cost_escapeChar_le {c d : Char} (known : escapeChar c = some d) : cost d ≤ cost c := by
  unfold escapeChar at known
  split at known <;> first | contradiction | (obtain rfl := Option.some.inj known; decide)

theorem weight_replicate (n : ℕ) {c : Char} (free : cost c = 0) :
    weight cost (List.replicate n c) = 0 := by
  simp [weight, free]

theorem weight_append (f : Char → ℕ) (text more : List Char) :
    weight f (text ++ more) = weight f text + weight f more := by
  simp [weight]

theorem weight_pad {flags sign digits : List Char} (width : ℕ) (zeros : Bool)
    (signFree : weight cost sign = 0) (digitsFree : weight cost digits = 0) :
    weight cost (pad flags width zeros sign digits) = 0 := by
  have blanks (n : ℕ) : weight cost (List.replicate n ' ') = 0 := weight_replicate n rfl
  have noughts (n : ℕ) : weight cost (List.replicate n '0') = 0 := weight_replicate n rfl
  simp only [pad]
  split_ifs <;> simp only [weight_append, signFree, digitsFree, blanks, noughts]

/-- A conversion without an argument prints blanks, zeros and signs; `%%` prints one `%`. -/
theorem weight_missing_le {spec out : List Char} {c : Char} (known : missing spec c = some out) :
    weight cost out ≤ cost c := by
  have noughts (n : ℕ) : weight cost (List.replicate n '0') = 0 := weight_replicate n rfl
  simp only [missing] at known
  split at known
  · contradiction
  · split_ifs at known with percent
    · obtain rfl := Option.some.inj known
      rw [percent]
      exact Nat.le_of_eq rfl
    all_goals
      obtain rfl := Option.some.inj known
      refine Nat.le_trans (Nat.le_of_eq (weight_pad _ _ ?_ ?_)) (Nat.zero_le _) <;>
        first | rfl | exact noughts _

/-- The character starts an escape or a conversion. -/
def isSpecial (c : Char) : Prop := c = '%' ∨ c = '\\'

instance (c : Char) : Decidable (isSpecial c) := inferInstanceAs (Decidable (_ ∨ _))

theorem weight_literal (c : Char) :
    weight cost (Format.literal c).1 + (Format.literal c).2.credit + (if isSpecial c then 1 else 0) =
      cost c := by
  by_cases special : isSpecial c
  · rcases special with rfl | rfl <;> rfl
  · rw [isSpecial, not_or] at special
    simp [Format.literal, isSpecial, special, weight, Format.credit]

theorem weight_step_le {state next : Format} {c : Char} {out : List Char}
    (step : state.step c = some (out, next)) :
    weight cost out + next.credit ≤ cost c + state.credit := by
  have literal := weight_literal c
  cases state with
  | text =>
    rw [Option.some.inj step] at literal
    exact Nat.le_trans (Nat.le_add_right _ _) (Nat.le_trans (Nat.le_of_eq literal) (Nat.le_add_right _ _))
  | escape =>
    simp only [Format.step] at step
    split_ifs at step with digit
    · obtain ⟨rfl, rfl⟩ := Prod.mk.inj (Option.some.inj step)
      simpa [weight, Format.credit] using credit_octal_le digit 0 0 1
    · obtain ⟨d, known, same⟩ := Option.map_eq_some_iff.mp step
      obtain ⟨rfl, rfl⟩ := Prod.mk.inj same
      simpa [weight, Format.credit] using cost_escapeChar_le known
  | octal value count =>
    simp only [Format.step] at step
    split_ifs at step with digit
    · obtain ⟨rfl, rfl⟩ := Prod.mk.inj (Option.some.inj step)
      simpa [weight] using credit_octal_le digit.1 value count (count + 1)
    · obtain ⟨rfl, rfl⟩ := Prod.mk.inj (Option.some.inj step)
      have paid := cost_octalChar_le value count
      simp only [weight, List.map_cons, List.sum_cons] at literal ⊢
      omega
  | conversion spec =>
    simp only [Format.step] at step
    split_ifs at step
    · obtain ⟨rfl, rfl⟩ := Prod.mk.inj (Option.some.inj step)
      exact Nat.zero_le _
    · obtain ⟨printed, known, same⟩ := Option.map_eq_some_iff.mp step
      obtain ⟨rfl, rfl⟩ := Prod.mk.inj same
      exact weight_missing_le known

/-- A format never prints more than it pays for. -/
theorem weight_output_le {state : Format} {format out : List Char}
    (printed : state.output format = some out) :
    weight cost out ≤ weight cost format + state.credit := by
  induction format generalizing state out with
  | nil =>
    cases state with
    | text => obtain rfl := Option.some.inj printed; exact Nat.zero_le _
    | escape => contradiction
    | octal value count =>
      obtain rfl := Option.some.inj printed
      simpa [weight] using cost_octalChar_le value count
    | conversion spec => contradiction
  | cons c format ih =>
    rw [Format.output] at printed
    split at printed
    · contradiction
    · rename_i first next step
      obtain ⟨rest, more, rfl⟩ := Option.map_eq_some_iff.mp printed
      have head := weight_step_le step
      have tail := ih more
      rw [weight_append]
      simp only [weight, List.map_cons, List.sum_cons] at head tail ⊢
      omega

/-- Escapes and conversions print less than they pay for. -/
theorem weight_printf_lt {format out : List Char} (printed : printf format = some out)
    (special : ∃ c ∈ format, isSpecial c) : weight cost out < weight cost format := by
  induction format generalizing out with
  | nil => simp at special
  | cons c format ih =>
    simp only [printf, Format.output, Format.step] at printed
    obtain ⟨rest, more, rfl⟩ := Option.map_eq_some_iff.mp printed
    have head := weight_literal c
    rw [weight_append]
    by_cases here : isSpecial c
    · have tail := weight_output_le more
      simp only [here, if_true] at head
      simp only [weight, List.map_cons, List.sum_cons] at head tail ⊢
      omega
    · have later : ∃ c ∈ format, isSpecial c := by
        obtain ⟨d, member, found⟩ := special
        rcases List.mem_cons.mp member with rfl | member
        · exact absurd found here
        · exact ⟨d, member, found⟩
      have text : (Format.literal c).2 = .text := by
        rw [isSpecial, not_or] at here
        simp [Format.literal, here]
      rw [text] at more head
      have tail := ih more later
      simp only [here, if_false, Format.credit] at head
      simp only [weight, List.map_cons, List.sum_cons] at head tail ⊢
      omega

/-- The formats that print themselves. -/
theorem printf_eq_self_iff {format : List Char} :
    printf format = some format ↔ '%' ∉ format ∧ '\\' ∉ format := by
  constructor
  · intro same
    have plain : ¬ ∃ c ∈ format, isSpecial c := fun special =>
      Nat.lt_irrefl _ (weight_printf_lt same special)
    exact ⟨fun member => plain ⟨_, member, .inl rfl⟩, fun member => plain ⟨_, member, .inr rfl⟩⟩
  · exact printf_of_plain

end Printf

end OmniaJit.Posix.Shell
