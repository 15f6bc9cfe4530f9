import Mathlib.Data.List.Basic

/-! # `string.format`

The format parser of `lj_strfmt.c` and the loop of `string_format`. A text is a list of
characters, one for each byte of the Lua string. The conversions of strings are spelled out;
those of numbers and pointers, and the conversion of other values to strings, are a parameter,
since nothing that uses them looks inside.
-/

namespace OmniaJit.Lua

abbrev Text := List Char

/-- A format directive: flags, width, precision and conversion character. -/
structure SFormat where
  left : Bool := false
  plus : Bool := false
  zero : Bool := false
  space : Bool := false
  alt : Bool := false
  width : ℕ := 0
  prec : Option ℕ := none
  conversion : Char := 's'
deriving DecidableEq, Repr

/-- What one call of the format parser returns: literal text, a directive, the location of an
error, or the end. -/
inductive Piece where
  | lit (s : Text)
  | directive (sf : SFormat)
  | err (location : Text)
  | eof
deriving DecidableEq, Repr

/-- The characters of `strfmt_map` that have an entry. -/
def strfmtMap : List Char :=
  ['A', 'E', 'F', 'G', 'X', 'a', 'c', 'd', 'e', 'f', 'g', 'i', 'o', 'p', 'q', 's', 'u', 'x']

def isDigit (c : Char) : Bool := '0' ≤ c && c ≤ '9'

def digit (c : Char) : ℕ := c.toNat - '0'.toNat

/-- The flags after a `%`. -/
def parseFlags : Text → SFormat → SFormat × Text
  | '-' :: p, sf => parseFlags p { sf with left := true }
  | '+' :: p, sf => parseFlags p { sf with plus := true }
  | '0' :: p, sf => parseFlags p { sf with zero := true }
  | ' ' :: p, sf => parseFlags p { sf with space := true }
  | '#' :: p, sf => parseFlags p { sf with alt := true }
  | p, sf => (sf, p)

/-- At most two digits. -/
def parseDigits : Text → Option ℕ × Text
  | c :: d :: p =>
      if isDigit c then
        if isDigit d then (some (digit c * 10 + digit d), p) else (some (digit c), d :: p)
      else (none, c :: d :: p)
  | [c] => if isDigit c then (some (digit c), []) else (none, [c])
  | [] => (none, [])

/-- A point may stand without digits, which means precision 0. -/
def parsePrecision : Text → Option ℕ × Text
  | '.' :: p => ((parseDigits p).1.getD 0, (parseDigits p).2)
  | p => (none, p)

/-- The directive after a `%`. A bad conversion character ends the whole format; the error shows
the text up to that character, unless it is a control character. -/
def parseDirective (p : Text) : Piece × Text :=
  let (sf, p₁) := parseFlags p {}
  let (width, p₂) := parseDigits p₁
  let (prec, p₃) := parsePrecision p₂
  let location (shown : Text) := '%' :: p.take (p.length - p₃.length) ++ shown
  match p₃ with
  | c :: rest =>
      if c ∈ strfmtMap then
        (.directive { sf with width := width.getD 0, prec := prec, conversion := c }, rest)
      else (.err (location (if 32 ≤ c.toNat then [c] else [])), [])
  | [] => (.err (location []), [])

/-- The literal text at the front, which ends with the first character of a `%%`. -/
def parseLiteral : Text → Text × Text
  | '%' :: '%' :: p => (['%'], p)
  | '%' :: p => ([], '%' :: p)
  | c :: p => (c :: (parseLiteral p).1, (parseLiteral p).2)
  | [] => ([], [])

/-- `lj_strfmt_parse`. -/
def strfmtParse (p : Text) : Piece × Text :=
  match parseLiteral p with
  | ([], '%' :: p) => parseDirective p
  | ([], p) => (.eof, p)
  | (s, p) => (.lit s, p)

/-- The results of `lj_strfmt_parse` until the end of the format. -/
def parsePieces : ℕ → Text → List Piece
  | 0, _ => []
  | fuel + 1, p =>
      match strfmtParse p with
      | (.eof, _) => []
      | (piece, rest) => piece :: parsePieces fuel rest

def pieces (format : Text) : List Piece := parsePieces format.length format

/-- A Lua value: a string, or anything else. -/
inductive Value (V : Type) where
  | string (s : Text)
  | other (v : V)
deriving DecidableEq

inductive FormatError where
  /-- `invalid option '%s' to 'format'` -/
  | option (location : Text)
  /-- `bad argument #n to 'format'` -/
  | argument (n : ℕ)
deriving DecidableEq

/-- `lj_strfmt_putfstr`. -/
def putfstr (sf : SFormat) (s : Text) : Text :=
  let shown := match sf.prec with
    | some prec => s.take prec
    | none => s
  let padding := List.replicate (sf.width - shown.length) ' '
  if sf.left then shown ++ padding else padding ++ shown

def isCntrl (c : Char) : Bool := c.toNat < 32 || c.toNat = 127

/-- A control character as a decimal escape, with leading zeros if a digit follows. -/
def escapeCntrl (c : ℕ) (digitFollows : Bool) : Text :=
  let char (d : ℕ) : Char := .ofNat ('0'.toNat + d)
  if 100 ≤ c ∨ digitFollows then [char (c / 100), char (c % 100 / 10), char (c % 10)]
  else if 10 ≤ c then [char (c / 10), char (c % 10)]
  else [char c]

/-- The body of `lj_strfmt_putquoted`. -/
def quotedBody : Text → Text
  | [] => []
  | c :: s =>
      (if c = '"' ∨ c = '\\' ∨ c = '\n' then ['\\', c]
        else if isCntrl c then '\\' :: escapeCntrl c.toNat (s.head?.any isDigit)
        else [c]) ++ quotedBody s

/-- `lj_strfmt_putquoted`. -/
def putquoted (s : Text) : Text := '"' :: quotedBody s ++ ['"']

section Format

variable {V : Type} (convert : SFormat → Value V → Except FormatError Text)

/-- One argument under one directive. -/
def putArg (sf : SFormat) : Value V → Except FormatError Text
  | .string s =>
      if sf.conversion = 's' then .ok (putfstr sf s)
      else if sf.conversion = 'q' then .ok (putquoted s)
      else convert sf (.string s)
  | v => convert sf v

/-- The loop of `string_format`: the pieces of the format, the arguments left, the number of the
last argument used and the output so far. -/
def formatLoop : List Piece → List (Value V) → ℕ → Text → Except FormatError Text
  | [], _, _, sb => .ok sb
  | .eof :: _, _, _, sb => .ok sb
  | .lit s :: rest, args, arg, sb => formatLoop rest args arg (sb ++ s)
  | .err location :: _, _, _, _ => .error (.option location)
  | .directive _ :: _, [], arg, _ => .error (.argument (arg + 1))
  | .directive sf :: rest, v :: args, arg, sb => do
      formatLoop rest args (arg + 1) (sb ++ (← putArg convert sf v))

/-- `string.format`. -/
def format (fmt : Text) (args : List (Value V)) : Except FormatError Text :=
  formatLoop convert (pieces fmt) args 1 []

end Format

section Literals

theorem parseLiteral_of_no_percent {p : Text} (plain : '%' ∉ p) : parseLiteral p = (p, []) := by
  induction p with
  | nil => rfl
  | cons c p ih =>
    have head : c ≠ '%' := fun same => plain (same ▸ List.mem_cons_self ..)
    have tail := ih (fun member => plain (List.mem_cons_of_mem _ member))
    simp [parseLiteral, head, tail]

/-- A literal never grows, and it takes every `%` it passes as one half of a pair. -/
theorem parseLiteral_length (p : Text) :
    (parseLiteral p).1.length + (parseLiteral p).2.length ≤ p.length ∧
      ('%' ∈ p → (parseLiteral p).1.length + (parseLiteral p).2.length < p.length ∨
        '%' ∈ (parseLiteral p).2) := by
  induction p using parseLiteral.induct with
  | case1 p =>
    simp only [parseLiteral, List.length_cons, List.length_nil]
    exact ⟨by omega, fun _ => .inl (by omega)⟩
  | case2 p other => simp [parseLiteral]
  | case3 c p first second ih =>
    have head : '%' ≠ c := fun same => second same.symm
    have unfolded : parseLiteral (c :: p) = (c :: (parseLiteral p).1, (parseLiteral p).2) := by
      simp [parseLiteral]
    rw [unfolded]
    simp only [List.length_cons, List.mem_cons, head, false_or]
    exact ⟨by omega, fun member => (ih.2 member).imp (by omega) id⟩
  | case4 => simp [parseLiteral]

/-- Only a directive or the end stops a literal before its first character. -/
theorem parseLiteral_empty {p : Text} (empty : (parseLiteral p).1 = []) :
    p = [] ∨ ∃ rest, parseLiteral p = ([], '%' :: rest) := by
  induction p using parseLiteral.induct with
  | case1 p => simp [parseLiteral] at empty
  | case2 p other => exact .inr ⟨p, by simp [parseLiteral]⟩
  | case3 c p first second ih => simp [parseLiteral] at empty
  | case4 => exact .inl rfl

theorem parseDirective_not_lit {p s rest : Text} : parseDirective p ≠ (.lit s, rest) := by
  intro parsed
  simp only [parseDirective] at parsed
  split at parsed
  · split_ifs at parsed <;> simp at parsed
  · simp at parsed

theorem parseDirective_not_eof {p rest : Text} : parseDirective p ≠ (.eof, rest) := by
  intro parsed
  simp only [parseDirective] at parsed
  split at parsed
  · split_ifs at parsed <;> simp at parsed
  · simp at parsed

/-- The parser's answer at a literal. -/
theorem strfmtParse_lit {p s rest : Text} (parsed : strfmtParse p = (.lit s, rest)) :
    parseLiteral p = (s, rest) ∧ s ≠ [] := by
  simp only [strfmtParse] at parsed
  split at parsed
  · exact absurd parsed parseDirective_not_lit
  · simp at parsed
  · next _ notEmpty same =>
    obtain ⟨sameLit, rfl⟩ := Prod.mk.inj parsed
    obtain rfl := Piece.lit.inj sameLit
    exact ⟨same, notEmpty⟩

theorem strfmtParse_eof {p rest : Text} (parsed : strfmtParse p = (.eof, rest)) : p = [] := by
  simp only [strfmtParse] at parsed
  split at parsed
  · exact absurd parsed parseDirective_not_eof
  · next q notPercent same =>
    refine (parseLiteral_empty (by rw [same])).resolve_right ?_
    rintro ⟨rest, percent⟩
    exact notPercent rest (Prod.mk.inj (same.symm.trans percent)).2
  · simp at parsed

section Fixed

variable {V : Type} (convert : SFormat → Value V → Except FormatError Text)

/-- Without a directive a format can only lose characters, and it loses one for every `%%`. -/
theorem formatLoop_length (fuel : ℕ) {p : Text} (enough : p.length ≤ fuel)
    (literal : ∀ sf, .directive sf ∉ parsePieces fuel p) (args : List (Value V)) (arg : ℕ)
    {sb out : Text} (formatted : formatLoop convert (parsePieces fuel p) args arg sb = .ok out) :
    out.length ≤ sb.length + p.length ∧ ('%' ∈ p → out.length < sb.length + p.length) := by
  induction fuel generalizing p sb with
  | zero =>
    obtain rfl : p = [] := List.length_eq_zero_iff.mp (by omega)
    obtain rfl := Except.ok.inj formatted
    simp
  | succ fuel ih =>
    simp only [parsePieces] at literal formatted
    rcases parsed : strfmtParse p with ⟨piece, rest⟩
    rw [parsed] at literal formatted
    cases piece with
    | eof =>
      obtain rfl := strfmtParse_eof parsed
      obtain rfl := Except.ok.inj formatted
      simp
    | lit s =>
      obtain ⟨same, nonempty⟩ := strfmtParse_lit parsed
      have shrinks := parseLiteral_length p
      simp only [same] at shrinks
      have positive := List.length_pos_iff.mpr nonempty
      have tail := ih (by omega) (fun sf member => literal sf (List.mem_cons_of_mem _ member))
        formatted
      simp only [List.length_append] at tail
      refine ⟨by omega, fun percent => ?_⟩
      rcases shrinks.2 percent with shorter | later
      · omega
      · have := tail.2 later
        omega
    | directive sf => exact absurd (List.mem_cons_self ..) (literal sf)
    | err location => simp [formatLoop] at formatted

/-- A format that yields itself has nothing to substitute: no `%` at all, or a directive whose
argument happens to spell it. -/
theorem format_fixed {fmt : Text} {args : List (Value V)} (fixed : format convert fmt args = .ok fmt) :
    '%' ∉ fmt ∨ ∃ sf, .directive sf ∈ pieces fmt := by
  by_contra neither
  push Not at neither
  have shorter := (formatLoop_length convert fmt.length (Nat.le_refl _) neither.2 args 1 fixed).2 neither.1
  simp at shorter

theorem format_of_no_percent {fmt : Text} (plain : '%' ∉ fmt) (args : List (Value V)) :
    format convert fmt args = .ok fmt := by
  cases fmt with
  | nil => rfl
  | cons c p =>
    have whole : strfmtParse (c :: p) = (.lit (c :: p), []) := by
      rw [strfmtParse, parseLiteral_of_no_percent plain]
    have only : pieces (c :: p) = [.lit (c :: p)] := by
      rw [pieces, List.length_cons, parsePieces, whole]
      cases p.length <;> rfl
    rw [format, only, formatLoop, formatLoop, List.nil_append]

end Fixed

end Literals

end OmniaJit.Lua
