import Mathlib.Data.List.AList
import OmniaJit.Data.Json
import OmniaJit.Machine.Program

/-! # `lunajson.decoder`

The decoder as the source has it: a position in the text, one function for each kind of value, and a table that
tells by the first character which function it is. What a decoder keeps from one call to the next is part of the
state: the first half of a surrogate pair, and the keys it has seen. Numbers are what `tonumber` makes of a decimal
fraction; null stands for whatever the caller wants in its place.
-/

namespace OmniaJit.Vendor.LunaJson

open OmniaJit.Data.Json OmniaJit.Machine

abbrev Json := Text

/-- How decoding fails. -/
inductive Error where
  /-- "parse error at pos: errmsg" -/
  | parse (pos : ℕ) (errmsg : String)
  /-- The error of Lua itself, when a number is expected and there is none. -/
  | arithmetic
  /-- More calls inside of each other than there is room for. -/
  | stack
  /-- A loop does not end. -/
  | endless

structure State where
  pos : ℕ := 1
  rec_depth : ℕ := 0
  f_str_surrogate_prev : ℕ := 0
  f_str_keycache : AList fun _ : Text => Text := ∅

abbrev M := Program Error State

def setPos (pos : ℕ) : M Unit := modify fun s => { s with pos }

def setPrev (f_str_surrogate_prev : ℕ) : M Unit := modify fun s => { s with f_str_surrogate_prev }

def decode_error {α : Type} (errmsg : String) : M α := fun s => .error (.parse s.pos errmsg) s

section Text

variable (json : Json)

/-- `byte(json, pos)` -/
def byte (pos : ℕ) : Option UInt8 := json[pos - 1]?

/-- `byte(json, i - 1, i)` -/
def byte2 : ℕ → Option UInt8 × Option UInt8
  | 0 => (none, none)
  | 1 => (json[0]?, none)
  | i + 2 => (json[i]?, json[i + 1]?)

/-- What is left from a position on. -/
def rest (pos : ℕ) : Text := json.drop (pos - 1)

/-- `match(json, '^[ \n\r\t]*()', pos)` -/
def matchSpaces (pos : ℕ) : ℕ := pos + ((rest json pos).takeWhile isSpace).length

/-- `match(json, '^[ \n\r\t]*c()', pos)` -/
def matchClose (c : UInt8) (pos : ℕ) : Option ℕ :=
  if byte json (matchSpaces json pos) = some c then some (matchSpaces json pos + 1) else none

/-- `match(json, '^[ \n\r\t]*c[ \n\r\t]*()', pos)` -/
def matchBetween (c : UInt8) (pos : ℕ) : Option ℕ := (matchClose json c pos).map (matchSpaces json)

end Text

section Literals

variable (json : Json) {ν : Type}

/-- `f_nul`, `f_fls` and `f_tru`, with what follows the first letter. -/
def literal (tail : Text) (v : Value ν) : M (Value ν) := do
  let s ← get
  if (rest json s.pos).take tail.length = tail then do
    setPos (s.pos + tail.length)
    pure v
  else decode_error "invalid value"

def f_nul : M (Value ν) := literal json [117, 108, 108] .null

def f_fls : M (Value ν) := literal json [97, 108, 115, 101] (.boolean false)

def f_tru : M (Value ν) := literal json [114, 117, 101] (.boolean true)

end Literals

section Numerals

/-- `[-+.A-Za-z]` -/
def isMark (c : UInt8) : Bool := c = 45 || c = 43 || c = 46 || 65 ≤ c && c ≤ 90 || 97 ≤ c && c ≤ 122

/-- `([-+.A-Za-z]?)` behind a match -/
def markAfter (num s : Text) : Option UInt8 := (s.drop num.length).head?.filter isMark

/-- `match(s, '^(%.?[0-9]*)([-+.A-Za-z]?)')` -/
def matchFraction (s : Text) : Text × Option UInt8 :=
  let num := if s.head? = some 46 then 46 :: s.tail.takeWhile isDigit else s.takeWhile isDigit
  (num, markAfter num s)

/-- `match(s, '^([0-9]+%.?[0-9]*)([-+.A-Za-z]?)')`, of a text that begins with a digit -/
def matchNumber (s : Text) : Text × Option UInt8 :=
  let num := s.takeWhile isDigit ++ (matchFraction (s.dropWhile isDigit)).1
  (num, markAfter num s)

def isExponent (c : UInt8) : Bool := c = 101 || c = 69

/-- `match(s, '^([^eE]*[eE][-+]?[0-9]+)([-+.A-Za-z]?)')` -/
def matchExponent (s : Text) : Option (Text × Option UInt8) :=
  match s.dropWhile (fun c => !isExponent c) with
  | [] => none
  | e :: s' =>
    let sign := if s'.head? = some 43 ∨ s'.head? = some 45 then s'.take 1 else []
    let digits := (s'.drop sign.length).takeWhile isDigit
    if digits = [] then none
    else
      let num := s.takeWhile (fun c => !isExponent c) ++ e :: (sign ++ digits)
      some (num, markAfter num s)

/-- The number behind the letter of an exponent. -/
def exponentOf : Text → ℤ
  | [] => 0
  | _ :: digits =>
    if digits.head? = some 45 then -(natOf digits.tail : ℤ)
    else if digits.head? = some 43 then natOf digits.tail
    else natOf digits

/-- The decimal fraction that a text stands for which is made of digits, a point and digits, and an exponent. -/
def decimal (s : Text) : ℚ :=
  let int := s.takeWhile isDigit
  let s := s.dropWhile isDigit
  let frac := if s.head? = some 46 then s.tail.takeWhile isDigit else []
  let s := if s.head? = some 46 then s.tail.dropWhile isDigit else s
  natOf (int ++ frac) * (10 : ℚ) ^ (exponentOf s - frac.length)

variable {ν : Type} (num : Numbers ν) (json : Json)

/-- `tonumber`, of such a text. -/
def tonumber (s : Text) : ν := num.round (decimal s)

def number_error {α : Type} : M α := decode_error "invalid number"

/-- `if mns then c = -c end return c` -/
def signed (mns : Bool) (c : ν) : Value ν := .number (if mns then num.neg c else c)

/-- What is done about the character behind the first part of a number, which may be the one of an exponent. -/
def exponentPart (c : Option UInt8) (part : Text) : M Text := do
  let s ← get
  match c with
  | none => pure part
  | some c =>
    if isExponent c then
      match matchExponent (rest json s.pos) with
      | some (part, none) => pure part
      | _ => number_error
    else number_error

/-- `0(\.[0-9]*)?([eE][+-]?[0-9]*)?` -/
def f_zro (mns : Bool) : M (Value ν) := do
  let s ← get
  let (part, c) := matchFraction (rest json s.pos)
  if part = [] then
    match c with
    | none => pure (signed num mns (num.round 0))
    | some _ => do
      let part ← exponentPart json c part
      setPos (s.pos + part.length)
      pure (signed num mns (num.round 0))
  else if part.head? ≠ some 46 ∨ part.getLast? = some 46 then number_error
  else do
    let part ← exponentPart json c part
    setPos (s.pos + part.length)
    pure (signed num mns (tonumber num part))

/-- `[1-9][0-9]*(\.[0-9]*)?([eE][+-]?[0-9]*)?` -/
def f_num (mns : Bool) : M (Value ν) := do
  modify fun s => { s with pos := s.pos - 1 }
  let s ← get
  let (part, c) := matchNumber (rest json s.pos)
  if part.getLast? = some 46 then number_error
  else do
    let part ← exponentPart json c part
    setPos (s.pos + part.length)
    pure (signed num mns (tonumber num part))

/-- skip minus sign -/
def f_mns : M (Value ν) := do
  let s ← get
  match byte json s.pos with
  | none => decode_error "invalid number"
  | some c => do
    setPos (s.pos + 1)
    if c > 48 then
      if c < 58 then f_num num json true else decode_error "invalid number"
    else if c > 47 then f_zro num json true
    else decode_error "invalid number"

end Numerals

section Strings

/-- The digits of base 16 from `0` on, with nothing for infinity. -/
def f_str_hextbl : List (Option ℕ) :=
  [some 0, some 1, some 2, some 3, some 4, some 5, some 6, some 7, some 8, some 9, none, none, none, none, none, none,
    none, some 10, some 11, some 12, some 13, some 14, some 15, none, none, none, none, none, none, none, none, none,
    none, none, none, none, none, none, none, none, none, none, none, none, none, none, none, none,
    none, some 10, some 11, some 12, some 13, some 14, some 15]

/-- `f_str_hextbl[c - 47]` -/
def digitOf (c : UInt8) : Option ℕ := if c < 48 then none else (f_str_hextbl[c.toNat - 48]?).join

/-- The number the four digits behind `u` stand for, if it is not infinite. -/
def ucodeOf (c1 c2 c3 c4 : UInt8) : Option ℕ := do
  some ((← digitOf c1) * 0x1000 + (← digitOf c2) * 0x100 + (← digitOf c3) * 0x10 + (← digitOf c4))

def f_str_escapetbl (ch : UInt8) : Option UInt8 :=
  if ch = 34 then some 34
  else if ch = 92 then some 92
  else if ch = 47 then some 47
  else if ch = 98 then some 8
  else if ch = 102 then some 12
  else if ch = 110 then some 10
  else if ch = 114 then some 13
  else if ch = 116 then some 9
  else none

/-- `f_str_subst`, for the character behind a backslash and up to five characters that follow it. -/
def f_str_subst (ch : UInt8) (ucode : Text) : M Text := do
  let s ← get
  if ch = 117 then
    match ucode with
    | c1 :: c2 :: c3 :: c4 :: more =>
      match ucodeOf c1 c2 c3 c4 with
      | none => decode_error "invalid unicode codepoint literal"
      | some u =>
        if u < 0x80 then pure (u.toUInt8 :: more)
        else if u < 0x800 then pure ((u / 0x40 + 0xC0).toUInt8 :: (u % 0x40 + 0x80).toUInt8 :: more)
        else if u < 0xD800 ∨ 0xE000 ≤ u then
          pure ((u / 0x1000 + 0xE0).toUInt8 :: (u % 0x1000 / 0x40 + 0x80).toUInt8 ::
            (u % 0x40 + 0x80).toUInt8 :: more)
        else if u < 0xDC00 then
          if s.f_str_surrogate_prev = 0 then do
            setPrev u
            if more = [] then pure []
            else decode_error "1st surrogate pair byte not continued by 2nd"
          else do
            setPrev 0
            decode_error "1st surrogate pair byte not continued by 2nd"
        else if s.f_str_surrogate_prev ≠ 0 then do
          let u := 0x10000 + (s.f_str_surrogate_prev - 0xD800) * 0x400 + (u - 0xDC00)
          setPrev 0
          pure ((u / 0x40000 + 0xF0).toUInt8 :: (u % 0x40000 / 0x1000 + 0x80).toUInt8 ::
            (u % 0x1000 / 0x40 + 0x80).toUInt8 :: (u % 0x40 + 0x80).toUInt8 :: more)
        else decode_error "2nd surrogate pair byte appeared without 1st"
    | _ => throw .arithmetic
  else if s.f_str_surrogate_prev ≠ 0 then do
    setPrev 0
    decode_error "1st surrogate pair byte not continued by 2nd"
  else
    match f_str_escapetbl ch with
    | none => decode_error "invalid escape sequence"
    | some c => pure (c :: ucode)

/-- `gsub(str, '\\(.)([^\\]?[^\\]?[^\\]?[^\\]?[^\\]?)', f_str_subst)` -/
def substitute : Text → M Text
  | [] => pure []
  | c :: str =>
    match c, str with
    | 92, ch :: str => do
      let ucode := (str.takeWhile (· ≠ 92)).take 5
      let out ← f_str_subst ch ucode
      let outs ← substitute (str.drop ucode.length)
      pure (out ++ outs)
    | c, str => do
      let outs ← substitute str
      pure (c :: outs)
termination_by str => str.length
decreasing_by
  all_goals simp_wf
  all_goals omega

variable (json : Json)

/-- The two characters in front of a quote, without pairs of backslashes. -/
def skipPairs : ℕ → Option UInt8 × Option UInt8
  | i + 2 => if byte2 json (i + 2) = (some 92, some 92) then skipPairs i else byte2 json (i + 2)
  | i => byte2 json i

/-- `find(json, '"', newpos, true)` -/
def findQuote (newpos : ℕ) : Option ℕ := ((rest json newpos).findIdx? (· = 34)).map (newpos + ·)

/-- The loop for the quote that ends a string. -/
def closingQuote : ℕ → ℕ → M ℕ
  | 0, _ => throw .endless
  | k + 1, newpos =>
    match findQuote json newpos with
    | none => decode_error "unterminated string"
    | some quote => if (skipPairs json (quote - 1)).2 = some 92 then closingQuote k (quote + 1) else pure quote

/-- The second half of `f_str`, which knows what is between the quotes. -/
def f_str_between (iskey : Bool) (str : Text) : M Text := do
  let s ← get
  match if iskey then s.f_str_keycache.lookup str else none with
  | some key => pure key
  | none =>
    if str.any (· < 32) then decode_error "unescaped control string"
    else do
      let out ← if str.contains 92 then substitute str else pure str
      let s ← get
      if str.contains 92 ∧ s.f_str_surrogate_prev ≠ 0 then do
        setPrev 0
        decode_error "1st surrogate pair byte not continued by 2nd"
      else do
        if iskey then modify fun s => { s with f_str_keycache := s.f_str_keycache.insert str out } else pure ()
        pure out

def f_str (iskey : Bool) : M Text := do
  let s ← get
  let quote ← closingQuote json (json.length + 1) s.pos
  setPos (quote + 1)
  f_str_between iskey ((rest json s.pos).take (quote - s.pos))

end Strings

section Values

/-- The functions in the table. -/
inductive Fn where
  | err | str | mns | zro | num | ary | fls | nul | tru | obj
deriving DecidableEq

/-- An entry of the table. -/
def jump (c : UInt8) : Fn :=
  if c = 34 then .str
  else if c = 45 then .mns
  else if c = 48 then .zro
  else if 49 ≤ c ∧ c ≤ 57 then .num
  else if c = 91 then .ary
  else if c = 102 then .fls
  else if c = 110 then .nul
  else if c = 116 then .tru
  else if c = 123 then .obj
  else .err

/-- `dispatcher[c]` -/
def dispatcher : Option UInt8 → M Fn
  | none => decode_error "unexpected termination"
  | some c => if c < 128 then pure (jump c) else decode_error "unexpected termination"

variable {ν : Type} (num : Numbers ν) (json : Json)

def enter : M Unit := do
  modify fun s => { s with rec_depth := s.rec_depth + 1 }
  let s ← get
  if s.rec_depth > 1000 then decode_error "too deeply nested json (> 1000)" else pure ()

def leave : M Unit := modify fun s => { s with rec_depth := s.rec_depth - 1 }

/-- The loop of `f_ary`, from the position of a value on, up to the closing bracket. -/
def f_ary_loop (call : Fn → M (Value ν)) : ℕ → ℕ → List (Value ν) → M (List (Value ν))
  | 0, _, _ => throw .endless
  | k + 1, newpos, ary => do
    let f ← dispatcher (byte json newpos)
    setPos (newpos + 1)
    let v ← call f
    let s ← get
    match matchBetween json 44 s.pos with
    | some newpos => f_ary_loop call k newpos (ary ++ [v])
    | none =>
      match matchClose json 93 s.pos with
      | none => decode_error "no closing bracket of an array"
      | some newpos => do
        setPos newpos
        pure (ary ++ [v])

def f_ary (call : Fn → M (Value ν)) : M (Value ν) := do
  enter
  modify fun s => { s with pos := matchSpaces json s.pos }
  let s ← get
  let ary ← if byte json s.pos = some 93 then do
      setPos (s.pos + 1)
      pure []
    else f_ary_loop json call (json.length + 1) s.pos []
  leave
  pure (.array ary)

/-- The first try behind a key, for a colon with at most one space behind it: the function for the value, or an
error entry, and the position behind the first character. -/
def colonFirst : M (Fn × ℕ) := do
  let s ← get
  if byte json s.pos = some 58 then
    if byte json (s.pos + 1) ≠ some 32 then do
      let f ← dispatcher (byte json (s.pos + 1))
      pure (f, s.pos + 2)
    else do
      let f ← dispatcher (byte json (s.pos + 2))
      pure (f, s.pos + 3)
  else pure (.err, s.pos)

/-- The second try, with any spaces. -/
def colonAnywhere : M (Fn × ℕ) := do
  let s ← get
  match matchBetween json 58 s.pos with
  | none => decode_error "no colon after a key"
  | some newpos => do
    let f ← dispatcher (byte json newpos)
    pure (f, newpos + 1)

def afterKey : M (Fn × ℕ) := do
  let found ← colonFirst json
  if found.1 = .err then colonAnywhere json else pure found

/-- The loop of `f_obj`, from the position of a key on, up to the closing bracket. -/
def f_obj_loop (call : Fn → M (Value ν)) : ℕ → ℕ → List (Text × Value ν) → M (List (Text × Value ν))
  | 0, _, _ => throw .endless
  | k + 1, newpos, obj => do
    if byte json newpos ≠ some 34 then decode_error "not key"
    else do
      setPos (newpos + 1)
      let key ← f_str json true
      let (f, newpos) ← afterKey json
      setPos newpos
      let v ← call f
      let s ← get
      match matchBetween json 44 s.pos with
      | some newpos => f_obj_loop call k newpos (put key v obj)
      | none =>
        match matchClose json 125 s.pos with
        | none => decode_error "no closing bracket of an object"
        | some newpos => do
          setPos newpos
          pure (put key v obj)

def f_obj (call : Fn → M (Value ν)) : M (Value ν) := do
  enter
  modify fun s => { s with pos := matchSpaces json s.pos }
  let s ← get
  let obj ← if byte json s.pos = some 125 then do
      setPos (s.pos + 1)
      pure []
    else f_obj_loop json call (json.length + 1) s.pos []
  leave
  pure (.object obj)

/-- A function of the table, with room for so many calls inside of each other. -/
def call : ℕ → Fn → M (Value ν)
  | _, .err => decode_error "invalid value"
  | _, .str => do pure (.string (← f_str json false))
  | _, .mns => f_mns num json
  | _, .zro => f_zro num json false
  | _, .num => f_num num json false
  | _, .fls => f_fls json
  | _, .nul => f_nul json
  | _, .tru => f_tru json
  | 0, .ary => throw .stack
  | 0, .obj => throw .stack
  | n + 1, .ary => f_ary json (call n)
  | n + 1, .obj => f_obj json (call n)

/-- `decode(json)`, which leaves the rest of the decoder as it is. -/
def decode : M (Value ν) := do
  modify fun s => { s with pos := matchSpaces json 1, rec_depth := 0 }
  let s ← get
  let f ← dispatcher (byte json s.pos)
  setPos (s.pos + 1)
  let v ← call num json 1001 f
  modify fun s => { s with pos := matchSpaces json s.pos - 1 }
  let s ← get
  if s.pos ≠ json.length then decode_error "json ended" else pure v

end Values

end OmniaJit.Vendor.LunaJson
