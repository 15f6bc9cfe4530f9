import OmniaJit.Lua.LibString

/-! # The pattern language

What a pattern of `lib_string.c` says, apart from how the matcher runs it. A pattern is a list of items.
An item takes the captures and the position of the subject to those behind it, in several ways if it
repeats; `results` lists what a whole pattern can lead to, in the order in which it is tried.
-/

namespace OmniaJit.Lua.LibString

/-- How often an item may match. -/
inductive Suffix where
  | once
  | optional
  | star
  | plus
  | minus
deriving DecidableEq

inductive PatternItem where
  | start
  | position
  | close
  | balance (b e : UInt8)
  | frontier (set : Bytes)
  | back (l : UInt8)
  | stop
  | single (item : Bytes) (suffix : Suffix)
deriving DecidableEq

section Parsing

def Suffix.ofHead (ep : Bytes) : Suffix :=
  if ep.head? = some '?'.toUInt8 then .optional
  else if ep.head? = some '*'.toUInt8 then .star
  else if ep.head? = some '+'.toUInt8 then .plus
  else if ep.head? = some '-'.toUInt8 then .minus
  else .once

/-- The pattern behind an item and its suffix. -/
def Suffix.behind (suffix : Suffix) (ep : Bytes) : Bytes := if suffix = .once then ep else ep.tail

theorem Suffix.behind_length (suffix : Suffix) (ep : Bytes) : (suffix.behind ep).length ≤ ep.length := by
  rw [Suffix.behind]
  split_ifs
  · exact Nat.le_refl _
  · exact (List.length_tail ..).trans_le (Nat.sub_le ..)

/-- The items of a pattern. -/
def parse (p : Bytes) : Except PatternError (List PatternItem) :=
  match p with
  | [] => .ok []
  | c :: rest =>
    if c = '('.toUInt8 then
      if rest.head? = some ')'.toUInt8 then (parse rest.tail).map (PatternItem.position :: ·)
      else (parse rest).map (PatternItem.start :: ·)
    else if c = ')'.toUInt8 then (parse rest).map (PatternItem.close :: ·)
    else if c = L_ESC ∧ rest.head? = some 'b'.toUInt8 then
      match rest.tail with
      | b :: e :: _ => (parse (rest.drop 3)).map (PatternItem.balance b e :: ·)
      | _ => .error .STRPATU
    else if c = L_ESC ∧ rest.head? = some 'f'.toUInt8 then
      if rest.tail.head? ≠ some '['.toUInt8 then .error .STRPATB
      else
        match _ends : classend rest.tail with
        | .error e => .error e
        | .ok ep =>
          (parse ep).map (PatternItem.frontier (rest.tail.tail.take (rest.tail.tail.length - ep.length)) :: ·)
    else if c = L_ESC ∧ lj_char_isa (rest.headD 0) LJ_CHAR_DIGIT then
      (parse rest.tail).map (PatternItem.back (rest.headD 0) :: ·)
    else if c = '$'.toUInt8 ∧ rest = [] then .ok [.stop]
    else
      match _ends : classend (c :: rest) with
      | .error e => .error e
      | .ok ep =>
        let suffix := Suffix.ofHead ep
        (parse (suffix.behind ep)).map
          (PatternItem.single ((c :: rest).take ((c :: rest).length - ep.length)) suffix :: ·)
termination_by p.length
decreasing_by
  all_goals
    try have shorter := classend_length _ends
    try have behind := Suffix.behind_length (Suffix.ofHead ep) ep
    grind

end Parsing

section Results

/-- The positions after no, one, two, … characters that match. -/
def runs (single : UInt8 → Bool) : Bytes → List Bytes
  | [] => [[]]
  | c :: s => (c :: s) :: if single c then runs single s else []

/-- The positions an item can go on to, in the order in which they are tried. -/
def Suffix.rests (single : UInt8 → Bool) (s : Bytes) : Suffix → List Bytes
  | .once => if s.head?.any single then [s.tail] else []
  | .optional => if s.head?.any single then [s.tail, s] else [s]
  | .star => (runs single s).reverse
  | .plus => if s.head?.any single then (runs single s.tail).reverse else []
  | .minus => runs single s

/-- The captures once the last unfinished one ends at `s`. -/
def closed (ms : List Capture) (s : Bytes) (l : ℕ) : List Capture :=
  ms.modify l fun capture => { capture with len := .closed (capture.init.length - s.length) }

/-- What one item does. -/
def PatternItem.step (src : Bytes) (ms : List Capture) (s : Bytes) : PatternItem → List (Bytes × List Capture)
  | .start => [(s, ms ++ [⟨s, .unfinished⟩])]
  | .position => [(s, ms ++ [⟨s, .position⟩])]
  | .close => (capture_to_close ms).toList.map fun l => (s, closed ms s l)
  | .balance b e =>
    match s with
    | [] => []
    | c :: s => (if c = b then LibString.balance b e 1 s else none).toList.map (·, ms)
  | .frontier set => if LibString.frontier src s set then [(s, ms)] else []
  | .back l =>
    match match_capture ms s l with
    | .ok (some s) => [(s, ms)]
    | _ => []
  | .stop => if s = [] then [(s, ms)] else []
  | .single item suffix => (suffix.rests (singlematch · item) s).map (·, ms)

/-- The ends of the match and the captures, in the order in which they are tried. -/
def results (src : Bytes) : List PatternItem → List Capture → Bytes → List (Bytes × List Capture)
  | [], ms, s => [(s, ms)]
  | item :: p, ms, s => (item.step src ms s).flatMap fun (s, ms) => results src p ms s

end Results

section Validity

/-- What is known of a capture before the match. -/
inductive Kind where
  | unfinished
  | position
  | closed
deriving DecidableEq

def Extent.kind : Extent → Kind
  | .unfinished => .unfinished
  | .position => .position
  | .closed _ => .closed

def kinds (ms : List Capture) : List Kind := ms.map fun capture => capture.len.kind

/-- The last unfinished capture of these kinds. -/
def kind_to_close (kinds : List Kind) : Option ℕ :=
  (List.range kinds.length).reverse.find? fun l => kinds[l]? = some .unfinished

/-- A pattern cannot raise an error behind captures of these kinds and `depth` nested matches. -/
def valid (depth : ℕ) : List Kind → List PatternItem → Bool
  | kinds, [] => kinds.all (· ≠ .unfinished)
  | kinds, .start :: p =>
    kinds.length < LUA_MAXCAPTURES ∧ depth < LJ_MAX_XLEVEL ∧ valid (depth + 1) (kinds ++ [.unfinished]) p
  | kinds, .position :: p =>
    kinds.length < LUA_MAXCAPTURES ∧ depth < LJ_MAX_XLEVEL ∧ valid (depth + 1) (kinds ++ [.position]) p
  | kinds, .close :: p =>
    match kind_to_close kinds with
    | some l => depth < LJ_MAX_XLEVEL ∧ valid (depth + 1) (kinds.set l .closed) p
    | none => false
  | kinds, .back l :: p =>
    '1'.toUInt8 ≤ l ∧ kinds[l.toNat - '1'.toNat]?.any (· ≠ .unfinished) ∧ valid depth kinds p
  | kinds, .single _ suffix :: p =>
    if suffix = .once then valid depth kinds p
    else depth < LJ_MAX_XLEVEL ∧ valid (depth + 1) kinds p
  | kinds, .balance _ _ :: p => valid depth kinds p
  | kinds, .frontier _ :: p => valid depth kinds p
  | kinds, .stop :: p => valid depth kinds p

end Validity

end OmniaJit.Lua.LibString
