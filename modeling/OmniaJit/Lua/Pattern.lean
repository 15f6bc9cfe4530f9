import OmniaJit.Lua.StringFormat

/-! # Lua patterns

The matcher of `lib_string.c` for patterns of character classes with quantifiers and at most one
capture, and `string.gsub` with a table of replacements. A match tries the longest repetition
first for `+` and the shortest first for `-`, and goes back to the next one when the rest of the
pattern fails.
-/

namespace OmniaJit.Lua

/-- A pattern item. -/
inductive Item where
  | one (holds : Char → Bool)
  | plus (holds : Char → Bool)
  | minus (holds : Char → Bool)
  | openCapture
  | closeCapture

/-- The subject text at the start of the capture, and the captured text. -/
structure MatchState where
  init : Text := []
  capture : Text := []

section Match

variable {R : Type}

/-- `max_expand`, with the match of the remaining pattern as `next`. -/
def maxExpand (holds : Char → Bool) (next : Text → Option R) : Text → Option R
  | [] => next []
  | c :: s => if holds c then maxExpand holds next s <|> next (c :: s) else next (c :: s)

/-- `min_expand`. -/
def minExpand (holds : Char → Bool) (next : Text → Option R) : Text → Option R
  | [] => next []
  | c :: s => next (c :: s) <|> if holds c then minExpand holds next s else none

/-- `match`: the capture and the text after the match. -/
def matchItems : List Item → MatchState → Text → Option (Text × Text)
  | [], ms, s => some (ms.capture, s)
  | .one holds :: p, ms, c :: s => if holds c then matchItems p ms s else none
  | .one _ :: _, _, [] => none
  | .plus holds :: p, ms, c :: s =>
      if holds c then maxExpand holds (matchItems p ms) s else none
  | .plus _ :: _, _, [] => none
  | .minus holds :: p, ms, s => minExpand holds (matchItems p ms) s
  | .openCapture :: p, ms, s => matchItems p { ms with init := s } s
  | .closeCapture :: p, ms, s =>
      matchItems p { ms with capture := ms.init.take (ms.init.length - s.length) } s

end Match

/-- A table entry as a replacement: a string or number, `false`, or something that cannot stand
for a string. -/
inductive Replacement where
  | text (s : Text)
  | falsy
  | invalid
deriving DecidableEq

/-- `invalid replacement value`. -/
inductive ReplacementError where
  | invalid
deriving DecidableEq

/-- `add_value` for a table; a missing or false entry keeps the matched text. -/
def addValue (v : Text → Option Replacement) (capture original : Text) :
    Except ReplacementError Text :=
  match v capture with
  | some (.text s) => .ok s
  | some .invalid => .error .invalid
  | some .falsy | none => .ok original

/-- The loop of `string_gsub`. Every step moves on by at least one character. -/
def gsubLoop (p : List Item) (v : Text → Option Replacement) : ℕ → Text → Except ReplacementError Text
  | 0, src => .ok src
  | fuel + 1, src =>
      match matchItems p {} src with
      | some (capture, e) => do
          let value ← addValue v capture (src.take (src.length - e.length))
          if e.length < src.length then return value ++ (← gsubLoop p v fuel e)
          else match src with
            | c :: src => return value ++ c :: (← gsubLoop p v fuel src)
            | [] => return value
      | none =>
          match src with
          | c :: src => return c :: (← gsubLoop p v fuel src)
          | [] => return []

/-- `string.gsub(s, p, v)` for a table `v`. -/
def gsub (s : Text) (p : List Item) (v : Text → Option Replacement) : Except ReplacementError Text :=
  gsubLoop p v (s.length + 1) s

/-- `%s`. -/
def isSpace (c : Char) : Bool := c = ' ' || (9 ≤ c.toNat && c.toNat ≤ 13)

/-- `%g`: the printable ASCII characters but the blank. -/
def isGraph (c : Char) : Bool := 33 ≤ c.toNat && c.toNat ≤ 126

end OmniaJit.Lua
