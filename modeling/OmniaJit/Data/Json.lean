import Mathlib.Algebra.Order.Field.Rat
import Mathlib.Algebra.Field.Rat
import Mathlib.Data.List.Nodup
import OmniaJit.Data.Words

/-! # JSON texts

The grammar of JSON over bytes: which texts stand for a value, up to a depth of nesting. What the characters
between two quotes stand for, and how a decimal fraction becomes a number, are parameters of it.
-/

namespace OmniaJit.Data.Json

abbrev Text := List UInt8

/-- The values. The members of an object are those that are left when a later one replaces an earlier one. -/
inductive Value (ν : Type) where
  | null
  | boolean (b : Bool)
  | number (n : ν)
  | string (s : Text)
  | array (items : List (Value ν))
  | object (members : List (Text × Value ν))

section Members

variable {κ ν : Type} [DecidableEq κ]

/-- An assignment of a member. -/
def put (k : κ) (v : ν) : List (κ × ν) → List (κ × ν)
  | [] => [(k, v)]
  | m :: ms => if m.1 = k then (k, v) :: ms else m :: put k v ms

/-- The members after assignments in a row. -/
def putAll (assigned : List (κ × ν)) : List (κ × ν) := assigned.foldl (fun ms m => put m.1 m.2 ms) []

end Members

section Characters

/-- A space, a line feed, a carriage return or a tab. -/
def isSpace (c : UInt8) : Bool := c = 32 || c = 10 || c = 13 || c = 9

def isDigit (c : UInt8) : Bool := 48 ≤ c && c ≤ 57

def Spaces (s : Text) : Prop := ∀ c ∈ s, isSpace c

/-- At least one digit. -/
def Digits (s : Text) : Prop := s ≠ [] ∧ ∀ c ∈ s, isDigit c

/-- The value of a digit of base 16. -/
def hex (c : UInt8) : Option ℕ :=
  if 48 ≤ c ∧ c ≤ 57 then some (c.toNat - 48)
  else if 65 ≤ c ∧ c ≤ 70 then some (c.toNat - 55)
  else if 97 ≤ c ∧ c ≤ 102 then some (c.toNat - 87)
  else none

/-- The characters that are written with a backslash. -/
def escape : UInt8 → Option UInt8
  | 34 => some 34
  | 92 => some 92
  | 47 => some 47
  | 98 => some 8
  | 102 => some 12
  | 110 => some 10
  | 114 => some 13
  | 116 => some 9
  | _ => none

end Characters

section Numbers

/-- The natural number the digits stand for. -/
def natOf (digits : Text) : ℕ := digits.foldl (fun n c => 10 * n + (c.toNat - 48)) 0

/-- The parts of a numeral without its sign: the digits in front of the point and behind it, and the letter, the
sign and the digits of the exponent. -/
structure Numeral where
  int : Text
  frac : Option Text
  exp : Option (UInt8 × Option UInt8 × Text)

namespace Numeral

structure Valid (n : Numeral) : Prop where
  int : n.int = [48] ∨ Digits n.int ∧ n.int.head? ≠ some 48
  frac : ∀ f ∈ n.frac, Digits f
  exp : ∀ e ∈ n.exp, (e.1 = 101 ∨ e.1 = 69) ∧ (∀ sign ∈ e.2.1, sign = 43 ∨ sign = 45) ∧ Digits e.2.2

def fracText (n : Numeral) : Text := n.frac.elim [] fun f => 46 :: f

def expText (n : Numeral) : Text := n.exp.elim [] fun e => e.1 :: (e.2.1.toList ++ e.2.2)

def text (n : Numeral) : Text := n.int ++ (n.fracText ++ n.expText)

def exponent (n : Numeral) : ℤ :=
  n.exp.elim 0 fun e => if e.2.1 = some 45 then -(natOf e.2.2 : ℤ) else natOf e.2.2

/-- The decimal fraction. -/
def value (n : Numeral) : ℚ :=
  natOf (n.int ++ n.frac.getD []) * (10 : ℚ) ^ (n.exponent - (n.frac.getD []).length)

end Numeral

/-- How decimal fractions are rounded to numbers, and the sign of a number is changed. -/
structure Numbers (ν : Type) where
  round : ℚ → ν
  neg : ν → ν

end Numbers

section Strings

/-- A character between quotes: as it is, behind a backslash, or as a code unit of 16 bits. -/
inductive Piece where
  | raw (c : UInt8)
  | escape (c : UInt8)
  | unit (u : ℕ)

/-- The code unit of four digits. -/
def codeUnit (a b c d : UInt8) : Option ℕ := do
  some ((← hex a) * 0x1000 + (← hex b) * 0x100 + (← hex c) * 0x10 + (← hex d))

/-- The characters between two quotes. -/
def lex : Text → Option (List Piece)
  | [] => some []
  | 92 :: 117 :: a :: b :: c :: d :: s => do
    let u ← codeUnit a b c d
    some (.unit u :: (← lex s))
  | 92 :: e :: s => do
    let c ← escape e
    some (.escape c :: (← lex s))
  | c :: s => if c < 32 ∨ c = 34 ∨ c = 92 then none else do some (.raw c :: (← lex s))

def IsFirst (u : ℕ) : Prop := 0xD800 ≤ u ∧ u < 0xDC00

def IsSecond (u : ℕ) : Prop := 0xDC00 ≤ u ∧ u < 0xE000

instance (u : ℕ) : Decidable (IsFirst u) := inferInstanceAs (Decidable (_ ∧ _))

instance (u : ℕ) : Decidable (IsSecond u) := inferInstanceAs (Decidable (_ ∧ _))

/-- The code point of two code units. -/
def pair (first second : ℕ) : ℕ := 0x10000 + (first - 0xD800) * 0x400 + (second - 0xDC00)

def utf8 (codePoint : ℕ) : Text := String.utf8EncodeChar (Char.ofNat codePoint)

/-- What the characters stand for: two code units in a row stand for one character if they are the first and the
second one of a pair, and are not allowed to be apart. -/
def decoded : List Piece → Option Text
  | [] => some []
  | .raw c :: ps => do some (c :: (← decoded ps))
  | .escape c :: ps => do some (c :: (← decoded ps))
  | .unit u :: ps =>
    if IsFirst u then
      match ps with
      | .unit u' :: ps => if IsSecond u' then do some (utf8 (pair u u') ++ (← decoded ps)) else none
      | _ => none
    else if IsSecond u then none
    else do some (utf8 u ++ (← decoded ps))

/-- Strings as the standard has them. -/
def Standard (body s : Text) : Prop := ∃ ps, lex body = some ps ∧ decoded ps = some s

end Strings

section Grammar

variable {ν : Type} (num : Numbers ν) (chars : Text → Text → Prop)

/-- Values that are not nested. -/
inductive Scalar : Value ν → Text → Prop
  | null : Scalar .null [110, 117, 108, 108]
  | false : Scalar (.boolean false) [102, 97, 108, 115, 101]
  | true : Scalar (.boolean true) [116, 114, 117, 101]
  | number {n : Numeral} (valid : n.Valid) : Scalar (.number (num.round n.value)) n.text
  | negative {n : Numeral} (valid : n.Valid) : Scalar (.number (num.neg (num.round n.value))) (45 :: n.text)
  | string {body s : Text} (stands : chars body s) : Scalar (.string s) (34 :: (body ++ [34]))

/-- Things with commas and spaces between them, and a bracket at the end. -/
inductive Listed {α : Type} (close : UInt8) (item : α → Text → Prop) : List α → Text → Prop
  | last {a : α} {t w : Text} (one : item a t) (spaces : Spaces w) : Listed close item [a] (t ++ (w ++ [close]))
  | more {a : α} {as : List α} {t w w' rest : Text} (one : item a t) (spaces : Spaces w) (spaces' : Spaces w')
      (others : Listed close item as rest) : Listed close item (a :: as) (t ++ (w ++ 44 :: (w' ++ rest)))

/-- A key, the colon and a value. -/
inductive Member (inner : Value ν → Text → Prop) : Text × Value ν → Text → Prop
  | mk {body k : Text} {v : Value ν} {w w' t : Text} (key : chars body k) (spaces : Spaces w) (spaces' : Spaces w')
      (item : inner v t) : Member inner (k, v) (34 :: (body ++ 34 :: (w ++ 58 :: (w' ++ t))))

/-- An array or an object. -/
inductive Nested (inner : Value ν → Text → Prop) : Value ν → Text → Prop
  | noItems {w : Text} (spaces : Spaces w) : Nested inner (.array []) (91 :: (w ++ [93]))
  | items {vs : List (Value ν)} {w t : Text} (spaces : Spaces w) (items : Listed 93 inner vs t) :
      Nested inner (.array vs) (91 :: (w ++ t))
  | noMembers {w : Text} (spaces : Spaces w) : Nested inner (.object []) (123 :: (w ++ [125]))
  | members {ms : List (Text × Value ν)} {w t : Text} (spaces : Spaces w)
      (members : Listed 125 (Member chars inner) ms t) : Nested inner (.object (putAll ms)) (123 :: (w ++ t))

/-- The texts that stand for a value, with this many levels of nesting at most. -/
def Stands : ℕ → Value ν → Text → Prop
  | 0, v, t => Scalar num chars v t
  | depth + 1, v, t => Scalar num chars v t ∨ Nested chars (Stands depth) v t

/-- A whole document. -/
def Document (depth : ℕ) (v : Value ν) (document : Text) : Prop :=
  ∃ w t w', Spaces w ∧ Stands num chars depth v t ∧ Spaces w' ∧ document = w ++ (t ++ w')

end Grammar

end OmniaJit.Data.Json
