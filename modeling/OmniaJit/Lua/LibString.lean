import Mathlib.Data.List.Basic
import OmniaJit.Data.Separator
import OmniaJit.Lua.FileRead

/-! # `string.find` and `string.gsub`

The matcher of `lib_string.c`. A pattern is read as a C string, so it ends at its first NUL byte; the
subject may have any bytes. A position in either of the two is the rest of it from there. Every nested
match has a shorter pattern, and the nesting is bounded as well.
-/

namespace OmniaJit.Lua.LibString

open OmniaJit.Data

/-- The bytes of an ASCII literal. -/
def ascii (s : String) : Bytes := s.toList.map Char.toUInt8

section CharacterClasses

def LJ_CHAR_CNTRL : UInt8 := 0x01
def LJ_CHAR_SPACE : UInt8 := 0x02
def LJ_CHAR_PUNCT : UInt8 := 0x04
def LJ_CHAR_DIGIT : UInt8 := 0x08
def LJ_CHAR_XDIGIT : UInt8 := 0x10
def LJ_CHAR_UPPER : UInt8 := 0x20
def LJ_CHAR_LOWER : UInt8 := 0x40
def LJ_CHAR_ALPHA : UInt8 := LJ_CHAR_LOWER ||| LJ_CHAR_UPPER
def LJ_CHAR_ALNUM : UInt8 := LJ_CHAR_ALPHA ||| LJ_CHAR_DIGIT
def LJ_CHAR_GRAPH : UInt8 := LJ_CHAR_ALNUM ||| LJ_CHAR_PUNCT

/-- `lj_char_bits`, whose second half is 128 throughout. -/
def lj_char_bits : List UInt8 := [
    1,   1,   1,   1,   1,   1,   1,   1,   1,   3,   3,   3,   3,   3,   1,   1,
    1,   1,   1,   1,   1,   1,   1,   1,   1,   1,   1,   1,   1,   1,   1,   1,
    2,   4,   4,   4,   4,   4,   4,   4,   4,   4,   4,   4,   4,   4,   4,   4,
  152, 152, 152, 152, 152, 152, 152, 152, 152, 152,   4,   4,   4,   4,   4,   4,
    4, 176, 176, 176, 176, 176, 176, 160, 160, 160, 160, 160, 160, 160, 160, 160,
  160, 160, 160, 160, 160, 160, 160, 160, 160, 160, 160,   4,   4,   4,   4, 132,
    4, 208, 208, 208, 208, 208, 208, 192, 192, 192, 192, 192, 192, 192, 192, 192,
  192, 192, 192, 192, 192, 192, 192, 192, 192, 192, 192,   4,   4,   4,   4,   1]

def lj_char_isa (c t : UInt8) : Bool := lj_char_bits.getD c.toNat 128 &&& t ≠ 0

/-- `match_class_map`, by the last five bits of the letter. -/
def match_class_map : List UInt8 := [
  0, LJ_CHAR_ALPHA, 0, LJ_CHAR_CNTRL, LJ_CHAR_DIGIT, 0, 0, LJ_CHAR_GRAPH, 0, 0, 0, 0,
  LJ_CHAR_LOWER, 0, 0, 0, LJ_CHAR_PUNCT, 0, 0, LJ_CHAR_SPACE, 0,
  LJ_CHAR_UPPER, 0, LJ_CHAR_ALNUM, LJ_CHAR_XDIGIT]

/-- `match_class(c, cl)` -/
def match_class (c cl : UInt8) : Bool :=
  if cl &&& 0xc0 = 0x40 then
    let t := match_class_map.getD (cl &&& 0x1f).toNat 0
    if t ≠ 0 then (if cl &&& 0x20 ≠ 0 then lj_char_isa c t else !lj_char_isa c t)
    else if cl = 'z'.toUInt8 then c = 0
    else if cl = 'Z'.toUInt8 then c ≠ 0
    else cl = c
  else cl = c

end CharacterClasses

/-- The errors a pattern can raise. -/
inductive PatternError where
  /-- missing '[' after '%f' in pattern -/
  | STRPATB
  /-- invalid pattern capture -/
  | STRPATC
  /-- malformed pattern (ends with '%') -/
  | STRPATE
  /-- malformed pattern (missing ']') -/
  | STRPATM
  /-- unbalanced pattern -/
  | STRPATU
  /-- pattern too complex -/
  | STRPATX
  /-- invalid capture index -/
  | STRCAPI
  /-- too many captures -/
  | STRCAPN
  /-- unfinished capture -/
  | STRCAPU
  /-- invalid replacement value -/
  | STRGSRV
deriving DecidableEq

def L_ESC : UInt8 := '%'.toUInt8
def LJ_MAX_XLEVEL : ℕ := 200
def LUA_MAXCAPTURES : ℕ := 32

section Items

/-- The loop of `classend` behind the bracket. Its first character never ends the set. -/
def setEnd : Bytes → Except PatternError Bytes
  | [] => .error .STRPATM
  | c :: p =>
    if c = L_ESC then
      match p with
      | [] => .error .STRPATM
      | _ :: p => if p.head? = some ']'.toUInt8 then .ok p.tail else setEnd p
    else if p.head? = some ']'.toUInt8 then .ok p.tail
    else setEnd p

/-- `classend`: what follows the item at the start of the pattern. -/
def classend : Bytes → Except PatternError Bytes
  | [] => .ok []
  | c :: p =>
    if c = L_ESC then (if p = [] then .error .STRPATE else .ok p.tail)
    else if c = '['.toUInt8 then (if p.head? = some '^'.toUInt8 then setEnd p.tail else setEnd p)
    else .ok p

/-- The loop of `matchbracketclass`. The last character is the closing bracket, which is read as a
character only behind an escape. -/
def setHolds (c : UInt8) (sig : Bool) : Bytes → Bool
  | [] => !sig
  | [_] => !sig
  | [x, y] => if x = L_ESC then (if match_class c y then sig else !sig) else if x = c then sig else !sig
  | x :: y :: z :: p =>
    if x = L_ESC then (if match_class c y then sig else setHolds c sig (z :: p))
    else if y = '-'.toUInt8 ∧ p ≠ [] then (if x ≤ c ∧ c ≤ z then sig else setHolds c sig p)
    else if x = c then sig
    else setHolds c sig (y :: z :: p)

/-- `matchbracketclass`, for the text from behind the opening bracket to the closing one. -/
def matchbracketclass (c : UInt8) (set : Bytes) : Bool :=
  if set.head? = some '^'.toUInt8 then setHolds c false set.tail else setHolds c true set

/-- `singlematch`, for the text of an item. -/
def singlematch (c : UInt8) : Bytes → Bool
  | [] => false
  | x :: item =>
    if x = '.'.toUInt8 then true
    else if x = L_ESC then match_class c (item.headD 0)
    else if x = '['.toUInt8 then matchbracketclass c item
    else x = c

end Items

/-- The length of a capture, or what stands for it. -/
inductive Extent where
  | unfinished
  | position
  | closed (len : ℕ)
deriving DecidableEq

structure Capture where
  init : Bytes
  len : Extent

/-- What a match leaves: NULL, or the end of the match and the captures. -/
abbrev Matched := Except PatternError (Option (Bytes × List Capture))

/-- The first alternative, and the second one if it is NULL. -/
def Matched.orElse (first : Matched) (second : Unit → Matched) : Matched :=
  match first with
  | .ok none => second ()
  | other => other

/-- The check at the start of `match`. -/
def nested (depth : ℕ) (match_ : ℕ → Matched) : Matched :=
  if depth + 1 > LJ_MAX_XLEVEL then .error .STRPATX else match_ (depth + 1)

/-- `max_expand`: the longest repetition whose rest matches. -/
def max_expand (single : UInt8 → Bool) (next : Bytes → Matched) : Bytes → Matched
  | [] => next []
  | c :: s =>
    if single c then (max_expand single next s).orElse fun _ => next (c :: s) else next (c :: s)

/-- `min_expand`: the shortest one. -/
def min_expand (single : UInt8 → Bool) (next : Bytes → Matched) : Bytes → Matched
  | [] => next []
  | c :: s => (next (c :: s)).orElse fun _ => if single c then min_expand single next s else .ok none

/-- The loop of `matchbalance`, with `cont` brackets open. -/
def balance (b e : UInt8) : ℕ → Bytes → Option Bytes
  | _, [] => none
  | cont, c :: s =>
    if c = e then (if cont = 1 then some s else balance b e (cont - 1) s)
    else if c = b then balance b e (cont + 1) s
    else balance b e cont s

def matchbalance (s p : Bytes) : Except PatternError (Option Bytes) :=
  match p with
  | b :: e :: _ =>
    match s with
    | [] => .ok none
    | c :: s => .ok (if c = b then balance b e 1 s else none)
  | _ => .error .STRPATU

/-- The test of `%f`: `set` holds of the next character and not of the one before. Outside the subject
there is a NUL. -/
def frontier (src s set : Bytes) : Bool :=
  let previous := if s.length = src.length then 0 else src.getD (src.length - s.length - 1) 0
  !matchbracketclass previous set && matchbracketclass (s.headD 0) set

def start_capture (ms : List Capture) (s : Bytes) (what : Extent) (next : List Capture → Matched) : Matched :=
  if ms.length ≥ LUA_MAXCAPTURES then .error .STRCAPN else next (ms ++ [⟨s, what⟩])

/-- `capture_to_close`: the last unfinished capture. -/
def capture_to_close (ms : List Capture) : Option ℕ :=
  (List.range ms.length).reverse.find? fun l => ms[l]?.map Capture.len = some .unfinished

def end_capture (ms : List Capture) (s : Bytes) (next : List Capture → Matched) : Matched :=
  match capture_to_close ms with
  | none => .error .STRPATC
  | some l => next (ms.modify l fun capture => { capture with len := .closed (capture.init.length - s.length) })

/-- `match_capture` for the digit `l`. A position capture has no text that could match. -/
def match_capture (ms : List Capture) (s : Bytes) (l : UInt8) : Except PatternError (Option Bytes) :=
  if l < '1'.toUInt8 then .error .STRCAPI
  else match ms[l.toNat - '1'.toNat]? with
    | none => .error .STRCAPI
    | some capture =>
      match capture.len with
      | .unfinished => .error .STRCAPI
      | .position => .ok none
      | .closed len =>
        .ok (if len ≤ s.length ∧ capture.init.take len = s.take len then some (s.drop len) else none)

theorem nested_of_lt {depth : ℕ} {match_ : ℕ → Matched} (shallow : depth < LJ_MAX_XLEVEL) :
    nested depth match_ = match_ (depth + 1) := if_neg (Nat.not_lt.mpr shallow)

section Lengths

theorem setEnd_length {p ep : Bytes} (ends : setEnd p = .ok ep) : ep.length < p.length := by
  fun_induction setEnd p <;> grind

theorem classend_length {p ep : Bytes} (ends : classend p = .ok ep) : ep.length ≤ p.length - 1 := by
  cases p with
  | nil =>
    cases ends
    exact Nat.zero_le _
  | cons c p =>
    simp only [classend] at ends
    split_ifs at ends
    · cases ends
      grind
    · have := setEnd_length ends
      grind
    · have := setEnd_length ends
      grind
    · cases ends
      grind

end Lengths

/-- `match` behind its depth check, with `s` and `p` where the label `init` finds them. -/
def matchItems (src : Bytes) (depth : ℕ) (ms : List Capture) (s p : Bytes) : Matched :=
  match p with
  | [] => .ok (some (s, ms))
  | c :: rest =>
    if c = '('.toUInt8 then
      if rest.head? = some ')'.toUInt8 then
        start_capture ms s .position fun ms => nested depth fun depth => matchItems src depth ms s rest.tail
      else start_capture ms s .unfinished fun ms => nested depth fun depth => matchItems src depth ms s rest
    else if c = ')'.toUInt8 then
      end_capture ms s fun ms => nested depth fun depth => matchItems src depth ms s rest
    else if c = L_ESC ∧ rest.head? = some 'b'.toUInt8 then
      match matchbalance s rest.tail with
      | .error e => .error e
      | .ok none => .ok none
      | .ok (some s) => matchItems src depth ms s (rest.drop 3)
    else if c = L_ESC ∧ rest.head? = some 'f'.toUInt8 then
      if rest.tail.head? ≠ some '['.toUInt8 then .error .STRPATB
      else
        match _ends : classend rest.tail with
        | .error e => .error e
        | .ok ep =>
          if frontier src s (rest.tail.tail.take (rest.tail.tail.length - ep.length)) then
            matchItems src depth ms s ep
          else .ok none
    else if c = L_ESC ∧ lj_char_isa (rest.headD 0) LJ_CHAR_DIGIT then
      match match_capture ms s (rest.headD 0) with
      | .error e => .error e
      | .ok none => .ok none
      | .ok (some s) => matchItems src depth ms s rest.tail
    else if c = '$'.toUInt8 ∧ rest = [] then
      if s = [] then .ok (some (s, ms)) else .ok none
    else
      match _ends : classend (c :: rest) with
      | .error e => .error e
      | .ok ep =>
        let single := fun x => singlematch x ((c :: rest).take ((c :: rest).length - ep.length))
        let m := s.head?.any single
        let next := fun s => nested depth fun depth => matchItems src depth ms s ep.tail
        if ep.head? = some '?'.toUInt8 then
          if m then (next s.tail).orElse fun _ => matchItems src depth ms s ep.tail
          else matchItems src depth ms s ep.tail
        else if ep.head? = some '*'.toUInt8 then max_expand single next s
        else if ep.head? = some '+'.toUInt8 then (if m then max_expand single next s.tail else .ok none)
        else if ep.head? = some '-'.toUInt8 then min_expand single next s
        else if m then matchItems src depth ms s.tail ep
        else .ok none
termination_by p.length
decreasing_by
  all_goals
    try have shorter := classend_length _ends
    grind

/-- `match` at one position of the subject. -/
def matchAt (src s p : Bytes) : Matched := nested 0 fun depth => matchItems src depth [] s p

/-- The part of a string that a C function sees of it. -/
def cstring (s : Bytes) : Bytes := s.takeWhile (· ≠ 0)

/-- A captured text, or the position of a position capture. -/
inductive CaptureValue where
  | text (s : Bytes)
  | position (n : ℕ)
deriving DecidableEq

/-- `push_onecapture(ms, i, s, e)`, where `s` and `e` may be missing. -/
def push_onecapture (src : Bytes) (ms : List Capture) (i : ℕ) (whole : Option Bytes) :
    Except PatternError CaptureValue :=
  match ms[i]? with
  | none =>
    match whole with
    | some text => if i = 0 then .ok (.text text) else .error .STRCAPI
    | none => .error .STRCAPI
  | some capture =>
    match capture.len with
    | .unfinished => .error .STRCAPU
    | .position => .ok (.position (src.length - capture.init.length + 1))
    | .closed len => .ok (.text (capture.init.take len))

/-- `push_captures(ms, s, e)`: the captures, or the whole match if there are none. -/
def push_captures (src : Bytes) (ms : List Capture) (whole : Option Bytes) :
    Except PatternError (List CaptureValue) :=
  (List.range (if ms.length = 0 ∧ whole.isSome then 1 else ms.length)).mapM fun i =>
    push_onecapture src ms i whole

/-- What `string.find` returns if there is a match. -/
structure Found where
  start : ℕ
  stop : ℕ
  captures : List CaptureValue := []
deriving DecidableEq

/-- `lj_str_haspattern`, for all bytes of the string. -/
def lj_str_haspattern (p : Bytes) : Bool :=
  p.any fun c => lj_char_isa c LJ_CHAR_PUNCT && (ascii "^$*+?.([%-").contains c

/-- `lj_str_find`: the number of bytes before the first occurrence. -/
def lj_str_find (p : Bytes) : Bytes → Option ℕ
  | [] => if p = [] then some 0 else none
  | c :: s => if p.isPrefixOf (c :: s) then some 0 else (lj_str_find p s).map (· + 1)

/-- What a match that starts at `sstr` gives, or else what comes after it. -/
def report {α : Type} (result : Bytes → Bytes → List Capture → Except PatternError α) (sstr : Bytes)
    (matched : Matched) (next : Unit → Except PatternError (Option α)) : Except PatternError (Option α) :=
  match matched with
  | .error e => .error e
  | .ok none => next ()
  | .ok (some (q, ms)) => (result sstr q ms).map some

/-- The loop through the string. -/
def search {α : Type} (src : Bytes) (result : Bytes → Bytes → List Capture → Except PatternError α)
    (anchor : Bool) (p : Bytes) : Bytes → Except PatternError (Option α)
  | [] => report result [] (matchAt src [] p) fun _ => .ok none
  | c :: sstr =>
    report result (c :: sstr) (matchAt src (c :: sstr) p) fun _ =>
      if anchor then .ok none else search src result anchor p sstr

/-- The search for a pattern, from the offset `st`. -/
def searchPattern {α : Type} (s p : Bytes) (st : ℕ)
    (result : Bytes → Bytes → List Capture → Except PatternError α) : Except PatternError (Option α) :=
  let pstr := cstring p
  if pstr.head? = some '^'.toUInt8 then search s result true pstr.tail (s.drop st)
  else search s result false pstr (s.drop st)

/-- The offset of the argument `init`. -/
def offset (s : Bytes) (init : ℤ) : ℕ := (if init < 0 then init + s.length else init - 1).toNat

/-- `string.find(s, p, init, plain)` -/
def find (s p : Bytes) (init : ℤ) (plain : Bool) : Except PatternError (Option Found) :=
  let st := offset s init
  if st > s.length then .ok none
  else if plain ∨ ¬ lj_str_haspattern p then
    .ok ((lj_str_find p (s.drop st)).map fun q => { start := st + q + 1, stop := st + q + p.length })
  else searchPattern s p st fun sstr q ms =>
    (push_captures s ms none).map fun captures =>
      { start := s.length - sstr.length + 1, stop := s.length - q.length, captures := captures }

/-- `string.match(s, p, init)` -/
def string_match (s p : Bytes) (init : ℤ) : Except PatternError (Option (List CaptureValue)) :=
  let st := offset s init
  if st > s.length then .ok none
  else searchPattern s p st fun sstr q ms => push_captures s ms (some (sstr.take (sstr.length - q.length)))

/-- What the third argument of `string.gsub` can be. The results of a table are strings, false or nil,
or of another type. -/
inductive Repl where
  | string (news : Bytes)
  | table (entries : CaptureValue → Option (Option Bytes))

/-- `add_s`, from any place of the string. A lone escape at its end stands for the NUL behind it. -/
def add_s (src : Bytes) (ms : List Capture) (whole : Bytes) : Bytes → Except PatternError Bytes
  | [] => .ok []
  | c :: news =>
    if c = L_ESC then
      match news with
      | [] => .ok [0]
      | d :: news =>
        if ¬ lj_char_isa d LJ_CHAR_DIGIT then return d :: (← add_s src ms whole news)
        else if d = '0'.toUInt8 then return whole ++ (← add_s src ms whole news)
        else do
          match ← push_onecapture src ms (d.toNat - '1'.toNat) (some whole) with
          | .text s => return s ++ (← add_s src ms whole news)
          | .position n => return ascii (toString n) ++ (← add_s src ms whole news)
    else return c :: (← add_s src ms whole news)

/-- `add_value` for the match `whole`: what is put in its place. -/
def add_value (src : Bytes) (ms : List Capture) (whole : Bytes) : Repl → Except PatternError Bytes
  | .string news => add_s src ms whole news
  | .table entries => do
    match entries (← push_onecapture src ms 0 (some whole)) with
    | some (some s) => pure s
    | some none => throw .STRGSRV
    | none => pure whole

/-- Without captures the match itself is looked up. -/
theorem add_value_table (src whole : Bytes) (entries : CaptureValue → Option (Option Bytes)) :
    add_value src [] whole (.table entries) =
      match entries (.text whole) with
      | some (some s) => .ok s
      | some none => .error .STRGSRV
      | none => .ok whole := rfl

/-- A text and one more substitution in front of it. -/
def substituted (value : Bytes) (after : Except PatternError (Bytes × ℕ)) : Except PatternError (Bytes × ℕ) :=
  after.map fun (rest, count) => (value ++ rest, count + 1)

/-- The loop of `string_gsub`: the text and the number of substitutions, of which `n` may still be
made. -/
def gsubLoop (subject : Bytes) (anchor : Bool) (p : Bytes) (repl : Repl) (n : ℕ) (src : Bytes) :
    Except PatternError (Bytes × ℕ) :=
  if n = 0 then .ok (src, 0)
  else
    match matchAt subject src p with
    | .error e => .error e
    | .ok (some (e, ms)) =>
      match add_value subject ms (src.take (src.length - e.length)) repl with
      | .error e => .error e
      | .ok value =>
        if e.length < src.length then
          substituted value (if anchor then .ok (e, 0) else gsubLoop subject anchor p repl (n - 1) e)
        else
          match src with
          | [] => .ok (value, 1)
          | c :: src =>
            substituted (value ++ [c])
              (if anchor then .ok (src, 0) else gsubLoop subject anchor p repl (n - 1) src)
    | .ok none =>
      match src with
      | [] => .ok ([], 0)
      | c :: src =>
        (if anchor then .ok (src, 0) else gsubLoop subject anchor p repl n src).map
          fun (rest, count) => (c :: rest, count)
termination_by src.length

/-- `string.gsub(s, p, repl, max_s)` -/
def gsub (src p : Bytes) (repl : Repl) (max_s : Option ℤ) : Except PatternError (Bytes × ℕ) :=
  let n := (max_s.getD (src.length + 1)).toNat
  let p := cstring p
  if p.head? = some '^'.toUInt8 then gsubLoop src true p.tail repl n src
  else gsubLoop src false p repl n src

/-- What the iterator of `string.gmatch(src, p)` returns until it ends, from the position `s` on. -/
def gmatchFrom (src p s : Bytes) : Except PatternError (List (List CaptureValue)) :=
  match matchAt src s p with
  | .error e => .error e
  | .ok (some (e, ms)) => do
    let captures ← push_captures src ms (some (s.take (s.length - e.length)))
    if e.length < s.length then return captures :: (← gmatchFrom src p e)
    else
      match s with
      | [] => return [captures]
      | _ :: s => return captures :: (← gmatchFrom src p s)
  | .ok none =>
    match s with
    | [] => .ok []
    | _ :: s => gmatchFrom src p s
termination_by s.length

/-- `string.gmatch(s, p)` -/
def gmatch (s p : Bytes) : Except PatternError (List (List CaptureValue)) := gmatchFrom s (cstring p) s

section Branches

variable {src s : Bytes} {depth : ℕ} {ms : List Capture}

theorem matchItems_nil : matchItems src depth ms s [] = .ok (some (s, ms)) := by rw [matchItems]

theorem matchItems_start {rest : Bytes} (other : rest.head? ≠ some ')'.toUInt8) :
    matchItems src depth ms s ('('.toUInt8 :: rest) =
      start_capture ms s .unfinished fun ms => nested depth fun depth => matchItems src depth ms s rest := by
  rw [matchItems, if_pos rfl, if_neg other]

theorem matchItems_close {rest : Bytes} :
    matchItems src depth ms s (')'.toUInt8 :: rest) =
      end_capture ms s fun ms => nested depth fun depth => matchItems src depth ms s rest := by
  rw [matchItems, if_neg (by decide), if_pos rfl]

theorem matchItems_end :
    matchItems src depth ms s ['$'.toUInt8] = if s = [] then .ok (some (s, ms)) else .ok none := by
  rw [matchItems, if_neg (by decide), if_neg (by decide), if_neg (by decide), if_neg (by decide),
    if_neg (by decide), if_pos ⟨rfl, rfl⟩]

/-- The characters that make a pattern item, and not a capture, an anchor or one of `%b`, `%f`, `%1`. -/
def StartsItem (c : UInt8) (rest : Bytes) : Prop :=
  c ≠ '('.toUInt8 ∧ c ≠ ')'.toUInt8 ∧ ¬ (c = '$'.toUInt8 ∧ rest = []) ∧
    ¬ (c = L_ESC ∧ rest.head? = some 'b'.toUInt8) ∧ ¬ (c = L_ESC ∧ rest.head? = some 'f'.toUInt8) ∧
      ¬ (c = L_ESC ∧ lj_char_isa (rest.headD 0) LJ_CHAR_DIGIT)

instance (c : UInt8) (rest : Bytes) : Decidable (StartsItem c rest) := inferInstanceAs (Decidable (_ ∧ _))

variable {c : UInt8} {rest ep item : Bytes}

theorem startsItem_of_notMem (plain : c ∉ ascii "()$%") : StartsItem c rest := by
  refine ⟨?_, ?_, ?_, ?_, ?_, ?_⟩
  · exact fun same => plain (same ▸ by decide)
  · exact fun same => plain (same ▸ by decide)
  all_goals exact fun both => plain (both.1 ▸ by decide)

/-- What follows an item that has no suffix. -/
def NoSuffix (rest : Bytes) : Prop :=
  rest.head? ≠ some '?'.toUInt8 ∧ rest.head? ≠ some '*'.toUInt8 ∧ rest.head? ≠ some '+'.toUInt8 ∧
    rest.head? ≠ some '-'.toUInt8

instance (rest : Bytes) : Decidable (NoSuffix rest) := inferInstanceAs (Decidable (_ ∧ _))

theorem noSuffix_cons (plain : c ∉ ascii "?*+-") : NoSuffix (c :: rest) := by
  refine ⟨?_, ?_, ?_, ?_⟩
  all_goals exact fun same => plain (Option.some.inj same ▸ by decide)

/-- The text of the first item of a pattern, and what follows it. -/
def FirstItem (p item ep : Bytes) : Prop := classend p = .ok ep ∧ p.take (p.length - ep.length) = item

/-- An item and its suffix. -/
theorem matchItems_item (starts : StartsItem c rest) (first : FirstItem (c :: rest) item ep) :
    matchItems src depth ms s (c :: rest) =
      let single := fun x => singlematch x item
      let m := s.head?.any single
      let next := fun s => nested depth fun depth => matchItems src depth ms s ep.tail
      if ep.head? = some '?'.toUInt8 then
        if m then (next s.tail).orElse fun _ => matchItems src depth ms s ep.tail
        else matchItems src depth ms s ep.tail
      else if ep.head? = some '*'.toUInt8 then max_expand single next s
      else if ep.head? = some '+'.toUInt8 then (if m then max_expand single next s.tail else .ok none)
      else if ep.head? = some '-'.toUInt8 then min_expand single next s
      else if m then matchItems src depth ms s.tail ep
      else .ok none := by
  obtain ⟨start, close, dollar, balance, frontier, back⟩ := starts
  obtain ⟨ends, rfl⟩ := first
  rw [matchItems, if_neg start, if_neg close, if_neg balance, if_neg frontier, if_neg back, if_neg dollar]
  split
  · rename_i failed
    cases ends.symm.trans failed
  · rename_i ep' ended
    obtain rfl := Except.ok.inj (ends.symm.trans ended)
    rfl

theorem matchItems_one (starts : StartsItem c rest) (first : FirstItem (c :: rest) item ep)
    (suffix : NoSuffix ep) :
    matchItems src depth ms s (c :: rest) =
      if s.head?.any fun x => singlematch x item then matchItems src depth ms s.tail ep else .ok none := by
  obtain ⟨option, star, plus, minus⟩ := suffix
  rw [matchItems_item starts first]
  simp only [option, star, plus, minus, if_false]

theorem matchItems_star (starts : StartsItem c rest) (first : FirstItem (c :: rest) item ('*'.toUInt8 :: ep)) :
    matchItems src depth ms s (c :: rest) =
      max_expand (fun x => singlematch x item)
        (fun s => nested depth fun depth => matchItems src depth ms s ep) s :=
  matchItems_item starts first

theorem matchItems_plus (starts : StartsItem c rest) (first : FirstItem (c :: rest) item ('+'.toUInt8 :: ep)) :
    matchItems src depth ms s (c :: rest) =
      if s.head?.any fun x => singlematch x item then
        max_expand (fun x => singlematch x item)
          (fun s => nested depth fun depth => matchItems src depth ms s ep) s.tail
      else .ok none :=
  matchItems_item starts first

end Branches

section Expansions

variable {single : UInt8 → Bool} {next : Bytes → Matched} {s : Bytes} {r : Bytes × List Capture}

theorem max_expand_none (nowhere : ∀ t, t <:+ s → next t = .ok none) : max_expand single next s = .ok none := by
  induction s with
  | nil => exact nowhere [] List.suffix_rfl
  | cons c s ih =>
    rw [max_expand, ih fun t suffix => nowhere t (suffix.trans (List.suffix_cons c s)),
      nowhere _ List.suffix_rfl]
    split_ifs <;> rfl

/-- The longest repetition ends where the rest of the pattern matches for the last time. -/
theorem max_expand_last {front back : Bytes} {c : UInt8} (all : ∀ x ∈ front, single x)
    (found : next (c :: back) = .ok (some r)) (nowhere : ∀ t, t <:+ back → next t = .ok none) :
    max_expand single next (front ++ c :: back) = .ok (some r) := by
  induction front with
  | nil =>
    rw [List.nil_append, max_expand, max_expand_none nowhere, found]
    split_ifs <;> rfl
  | cons x front ih =>
    rw [List.cons_append, max_expand, if_pos (all x (List.mem_cons_self ..)),
      ih fun y member => all y (List.mem_cons_of_mem x member)]
    rfl

section NextCharacter

variable {holds : UInt8 → Bool} {result : Bytes → Bytes × List Capture}

/-- A rest of the pattern that goes by the next character. -/
theorem max_expand_head_none (none : ∀ x ∈ s, ¬ holds x) :
    max_expand single (fun t => .ok (if t.head?.any holds then some (result t) else .none)) s = .ok .none := by
  apply max_expand_none
  intro t suffix
  cases t with
  | nil => rfl
  | cons x t =>
    have other := none x (suffix.subset (List.mem_cons_self ..))
    rw [List.head?_cons, Option.any_some, if_neg other]

theorem max_expand_head_last {front back : Bytes} {c : UInt8} (all : ∀ x ∈ front, single x) (here : holds c)
    (last : ∀ x ∈ back, ¬ holds x) :
    max_expand single (fun t => .ok (if t.head?.any holds then some (result t) else none)) (front ++ c :: back) =
      .ok (some (result (c :: back))) := by
  apply max_expand_last all
  · rw [List.head?_cons, Option.any_some, if_pos here]
  · intro t suffix
    cases t with
    | nil => rfl
    | cons x t =>
      have other := last x (suffix.subset (List.mem_cons_self ..))
      rw [List.head?_cons, Option.any_some, if_neg other]

end NextCharacter

/-- It goes to the end of the subject if it can. -/
theorem max_expand_all (all : ∀ x ∈ s, single x) (found : next [] = .ok (some r)) :
    max_expand single next s = .ok (some r) := by
  induction s with
  | nil => exact found
  | cons c s ih =>
    rw [max_expand, if_pos (all c (List.mem_cons_self ..)),
      ih fun x member => all x (List.mem_cons_of_mem c member)]
    rfl

/-- A repetition that cannot get to the end, for a rest that matches nowhere else. -/
theorem max_expand_stuck (stuck : ∃ x ∈ s, ¬ single x) (inner : ∀ t ≠ [], next t = .ok none) :
    max_expand single next s = .ok none := by
  induction s with
  | nil => simp at stuck
  | cons c s ih =>
    rw [max_expand, inner _ (List.cons_ne_nil c s)]
    split_ifs with holds
    · obtain ⟨x, member, fails⟩ := stuck
      rcases List.mem_cons.mp member with rfl | later
      · exact absurd holds fails
      · rw [ih ⟨x, later, fails⟩]
        rfl
    · rfl

/-- The result is one of the rest of the pattern. -/
theorem max_expand_eq (single : UInt8 → Bool) (next : Bytes → Matched) (s : Bytes) :
    ∃ t, max_expand single next s = next t := by
  induction s with
  | nil => exact ⟨[], rfl⟩
  | cons c s ih =>
    rw [max_expand]
    split_ifs
    · obtain ⟨t, same⟩ := ih
      rw [same]
      match result : next t with
      | .error e => exact ⟨t, result.symm⟩
      | .ok (some r) => exact ⟨t, result.symm⟩
      | .ok none => exact ⟨c :: s, rfl⟩
    · exact ⟨c :: s, rfl⟩

/-- A repetition of any character, with a rest that never fails: the rest goes by the last place where it
matches. -/
theorem max_expand_lastSome {β : Type} (f : Bytes → Option β) (g : β → Bytes × List Capture) (s : Bytes) :
    max_expand (fun _ => true) (fun t => .ok ((f t).map g)) s = .ok ((lastSome f s).map g) := by
  induction s with
  | nil => rfl
  | cons c s ih =>
    rw [max_expand, if_pos rfl, ih, lastSome]
    cases lastSome f s <;> rfl

/-- A pattern with such a repetition at its start. -/
theorem matchAt_greedy {β : Type} {src p : Bytes} (f : Bytes → Option β) (g : β → Bytes × List Capture)
    (rest : ∀ t, (nested (0 + 1) fun depth => matchItems src depth [] t p) = .ok ((f t).map g))
    (nowhere : f [] = none) (s : Bytes) :
    matchAt src s (ascii ".+" ++ p) = .ok ((lastSome f s.tail).map g) := by
  have any : FirstItem ('.'.toUInt8 :: '+'.toUInt8 :: p) (ascii ".") ('+'.toUInt8 :: p) := by
    refine ⟨rfl, ?_⟩
    rw [List.length_cons, Nat.add_sub_cancel_left]
    rfl
  have start : ascii ".+" ++ p = '.'.toUInt8 :: '+'.toUInt8 :: p := rfl
  have all (x : UInt8) : singlematch x (ascii ".") = true := rfl
  rw [matchAt, nested_of_lt (by decide), start, matchItems_plus (startsItem_of_notMem (by decide)) any]
  simp only [all, rest, max_expand_lastSome]
  cases s with
  | nil => rw [List.tail_nil, lastSome, nowhere]; rfl
  | cons c s => rfl

end Expansions

section Searches

variable {α : Type} {src p : Bytes} {result : Bytes → Bytes → List Capture → Except PatternError α}

theorem search_none {s : Bytes} (nowhere : ∀ t, t <:+ s → matchAt src t p = .ok none) :
    search src result false p s = .ok none := by
  induction s with
  | nil => rw [search, nowhere [] List.suffix_rfl, report]
  | cons c s ih =>
    rw [search, nowhere _ List.suffix_rfl, report, if_neg Bool.false_ne_true,
      ih fun t suffix => nowhere t (suffix.trans (List.suffix_cons c s))]

theorem search_first {s q : Bytes} {ms : List Capture} (found : matchAt src s p = .ok (some (q, ms)))
    (anchor : Bool) : search src result anchor p s = (result s q ms).map some := by
  cases s <;> rw [search, found, report]

/-- No error comes from the search if none comes from a match. -/
theorem search_ok {s : Bytes} (fine : ∀ t, matchAt src t p = .ok none ∨
      ∃ q ms r, matchAt src t p = .ok (some (q, ms)) ∧ result t q ms = .ok r) :
    ∃ r, search src result false p s = .ok r := by
  have step (t : Bytes) (next : Unit → Except PatternError (Option α)) (rest : ∃ r, next () = .ok r) :
      ∃ r, report result t (matchAt src t p) next = .ok r := by
    rcases fine t with nowhere | ⟨q, ms, r, found, reported⟩
    · rw [nowhere]
      exact rest
    · rw [found, report, reported]
      exact ⟨some r, rfl⟩
  induction s with
  | nil => exact step [] _ ⟨none, rfl⟩
  | cons c s ih => exact step (c :: s) _ ih

/-- Nothing is found before `back`. -/
theorem search_append {front back : Bytes}
    (nowhere : ∀ c rest, c :: rest <:+ front → matchAt src (c :: rest ++ back) p = .ok none) :
    search src result false p (front ++ back) = search src result false p back := by
  induction front with
  | nil => rfl
  | cons c front ih =>
    rw [List.cons_append, search, ← List.cons_append, nowhere c front List.suffix_rfl, report,
      if_neg Bool.false_ne_true,
      ih fun c' rest suffix => nowhere c' rest (suffix.trans (List.suffix_cons c front))]

/-- A substitution for a pattern that matches nowhere. -/
theorem gsubLoop_none {repl : Repl} {n : ℕ} {s : Bytes} (nowhere : ∀ t, t <:+ s → matchAt src t p = .ok none) :
    gsubLoop src false p repl n s = .ok (s, 0) := by
  induction s with
  | nil =>
    rw [gsubLoop, nowhere [] List.suffix_rfl]
    split_ifs <;> rfl
  | cons c s ih =>
    rw [gsubLoop, nowhere _ List.suffix_rfl, if_neg Bool.false_ne_true,
      ih fun t suffix => nowhere t (suffix.trans (List.suffix_cons c s))]
    split_ifs <;> rfl

end Searches

section SingleItems

/-- A pattern that matches one character, and no other way. -/
def MatchesOne (p : Bytes) (holds : UInt8 → Bool) : Prop :=
  ∀ src s, matchAt src s p = .ok (if s.head?.any holds then some (s.tail, []) else none)

/-- A pattern that is one item without a suffix. -/
theorem matchesOne_item {c : UInt8} {rest : Bytes} (starts : StartsItem c rest)
    (ends : classend (c :: rest) = .ok []) : MatchesOne (c :: rest) fun x => singlematch x (c :: rest) := by
  intro src s
  have whole : FirstItem (c :: rest) (c :: rest) [] := ⟨ends, List.take_length ..⟩
  rw [matchAt, nested_of_lt (by decide), matchItems_one starts whole (by decide), matchItems_nil]
  split_ifs <;> rfl

/-- The subject with each character that matches replaced. -/
def replaceEach (holds : UInt8 → Bool) (value : UInt8 → Bytes) (src : Bytes) : Bytes :=
  src.flatMap fun c => if holds c then value c else [c]

theorem replaceEach_nil (holds : UInt8 → Bool) (src : Bytes) :
    replaceEach holds (fun _ => []) src = src.filter fun c => !holds c := by
  induction src with
  | nil => rfl
  | cons c src ih =>
    rw [List.filter_cons, ← ih, replaceEach, List.flatMap_cons]
    cases holds c <;> rfl

variable {p : Bytes} {holds : UInt8 → Bool} {repl : Repl} {value : UInt8 → Bytes}

theorem gsubLoop_item (one : MatchesOne p holds)
    (added : ∀ subject c, holds c → add_value subject [] [c] repl = .ok (value c)) (subject : Bytes)
    {n : ℕ} {src : Bytes} (enough : src.length < n) :
    gsubLoop subject false p repl n src = .ok (replaceEach holds value src, src.countP holds) := by
  induction src generalizing n with
  | nil =>
    rw [gsubLoop, if_neg (by omega), one]
    rfl
  | cons c src ih =>
    rw [List.length_cons] at enough
    rw [gsubLoop, if_neg (by omega), one, List.head?_cons, Option.any_some, List.tail_cons]
    cases matched : holds c with
    | true =>
      have single : (c :: src).take (src.length + 1 - src.length) = [c] := by
        rw [Nat.add_sub_cancel_left]
        rfl
      simp only [if_true, List.length_cons, single, added subject c matched, Nat.lt_succ_self,
        Bool.false_eq_true, if_false, ih (by omega : src.length < n - 1), substituted, Except.map,
        List.countP_cons, matched]
      rw [replaceEach, replaceEach, List.flatMap_cons, matched]
      rfl
    | false =>
      simp only [Bool.false_eq_true, if_false, ih (by omega : src.length < n), Except.map,
        List.countP_cons, matched, Nat.add_zero]
      rw [replaceEach, replaceEach, List.flatMap_cons, matched]
      rfl

/-- A substitution for a pattern of one item goes character by character. -/
theorem gsub_item (one : MatchesOne p holds) (plain : cstring p = p) (free : p.head? ≠ some '^'.toUInt8)
    (added : ∀ subject c, holds c → add_value subject [] [c] repl = .ok (value c)) (src : Bytes) :
    gsub src p repl none = .ok (replaceEach holds value src, src.countP holds) := by
  rw [gsub, plain, if_neg free]
  exact gsubLoop_item one added src (by simp)

/-- A search for a pattern of one item finds something if a character of the subject is one. -/
theorem search_item {α : Type} (one : MatchesOne p holds) {src : Bytes}
    {result : Bytes → Bytes → List Capture → Except PatternError α} (fine : ∀ t q, ∃ r, result t q [] = .ok r)
    (s : Bytes) : ∃ found, search src result false p s = .ok found ∧ found.isSome = s.any holds := by
  induction s with
  | nil =>
    refine ⟨none, ?_, rfl⟩
    rw [search, one]
    rfl
  | cons c s ih =>
    rw [search, one, List.head?_cons, Option.any_some, List.any_cons]
    cases holds c with
    | true =>
      obtain ⟨r, reported⟩ := fine (c :: s) s
      refine ⟨some r, ?_, rfl⟩
      rw [if_pos rfl, List.tail_cons, report, reported]
      rfl
    | false =>
      rw [Bool.false_or]
      exact ih

theorem find_item (one : MatchesOne p holds) (plain : cstring p = p) (free : p.head? ≠ some '^'.toUInt8)
    (special : lj_str_haspattern p) (s : Bytes) :
    ∃ found, find s p 1 false = .ok found ∧ found.isSome = s.any holds := by
  have start : offset s 1 = 0 := rfl
  simp only [find, start, Nat.not_lt_zero, gt_iff_lt, if_false, special, not_true_eq_false, Bool.false_eq_true,
    or_self, searchPattern, plain, if_neg free, List.drop_zero]
  apply search_item one
  intro t q
  exact ⟨_, rfl⟩

theorem gsubLoop_empty (subject : Bytes) {n : ℕ} {src : Bytes} (enough : src.length < n) :
    gsubLoop subject false [] (.string []) n src = .ok (src, src.length + 1) := by
  have always (s : Bytes) : matchAt subject s [] = .ok (some (s, [])) := by
    rw [matchAt, nested_of_lt (by decide), matchItems]
  induction src generalizing n with
  | nil =>
    rw [gsubLoop, if_neg (by omega), always]
    rfl
  | cons c src ih =>
    rw [List.length_cons] at enough
    rw [gsubLoop, if_neg (by omega), always]
    simp only [add_value, add_s, lt_irrefl, if_false, Bool.false_eq_true,
      ih (by omega : src.length < n - 1), substituted, Except.map, List.length_cons]
    rfl

/-- Nothing is put between the characters for an empty pattern, also for one whose first byte is NUL. -/
theorem gsub_empty {p : Bytes} (empty : cstring p = []) (src : Bytes) :
    gsub src p (.string []) none = .ok (src, src.length + 1) := by
  rw [gsub, empty, if_neg (by decide)]
  exact gsubLoop_empty src (by simp)

end SingleItems

end OmniaJit.Lua.LibString
