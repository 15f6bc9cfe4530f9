import OmniaJit.Data.Separator
import OmniaJit.Lua.LibString

/-! # The dotted name of a path

What the argument loop of `bin/luastatic.lua` computes for a path: its extension, its base name and the
name under which the file is bundled. Each is a pattern match; here is what the patterns find.
-/

namespace OmniaJit.Bin

open OmniaJit.Lua OmniaJit.Lua.LibString OmniaJit.Data

/-- The first result of `s:match(p)`, which is a string for the patterns here. -/
def firstCapture (s p : Bytes) : Except PatternError (Option Bytes) := do
  match ← string_match s p 1 with
  | some (.text text :: _) => return some text
  | _ => return none

/-- `name:match("%.(%a+)$")` -/
def extension (name : Bytes) : Except PatternError (Option Bytes) := firstCapture name (ascii "%.(%a+)$")

/-- `basename(path)` -/
def basename (path : Bytes) : Except PatternError Bytes := do
  let (name, _) ← gsub path (ascii "(.*[\\/])(.*)") (.string (ascii "%2")) none
  return name

/-- `s:match("(.+)%.") or s` -/
def noextension (s : Bytes) : Except PatternError Bytes := do
  return (← firstCapture s (ascii "(.+)%.")).getD s

/-- `info.dotpath_noextension` -/
def dotpath_noextension (path : Bytes) : Except PatternError Bytes := do
  let (dotpath, _) ← gsub path (ascii "^%.%/") (.string []) none
  let (dotpath, _) ← gsub dotpath (ascii "[\\/]") (.string (ascii ".")) none
  noextension dotpath

def dot : UInt8 := '.'.toUInt8

/-- A slash or a backslash. -/
def isSeparator (c : UInt8) : Bool := '/'.toUInt8 = c || '\\'.toUInt8 = c

/-- What is before the last dot, unless that is nothing or there is no dot. -/
def stem (s : Bytes) : Bytes :=
  match lastSplit (· = dot) s with
  | some (c :: front, _) => c :: front
  | _ => s

/-- What is behind the last separator. -/
def lastPart (path : Bytes) : Bytes :=
  match lastSplit isSeparator path with
  | some (_, back) => back
  | none => path

/-- The path without a leading `./`, with dots for its separators. -/
def dottedPath (path : Bytes) : Bytes :=
  (if ascii "./" <+: path then path.drop 2 else path).map fun c => if isSeparator c then dot else c

/-- The dotted name of a path. -/
def dottedName (path : Bytes) : Bytes := stem (dottedPath path)

section Stem

variable {src : Bytes}

/-- The rest of `(.+)%.` behind the repetition: the next character is a dot. -/
theorem stem_rest (s t : Bytes) :
    (nested (0 + 1 + 1) fun depth => matchItems src depth [⟨s, .unfinished⟩] t (ascii ")%.")) =
      .ok (if t.head?.any (· = dot) then some (t.tail, [⟨s, .closed (s.length - t.length)⟩]) else none) := by
  have close : ascii ")%." = ')'.toUInt8 :: ascii "%." := rfl
  have escape : ascii "%." = L_ESC :: ascii "." := rfl
  have item : FirstItem (L_ESC :: ascii ".") (ascii "%.") [] := ⟨rfl, rfl⟩
  have unfinished : capture_to_close [⟨s, .unfinished⟩] = some 0 := rfl
  have isDot : (fun x => singlematch x (ascii "%.")) = fun x => decide (x = dot) := by
    funext x
    have single : singlematch x (ascii "%.") = decide (dot = x) := rfl
    rw [single]
    exact decide_eq_decide.mpr eq_comm
  rw [nested_of_lt (by decide), close, matchItems_close, end_capture, unfinished]
  dsimp only
  rw [nested_of_lt (by decide), escape, matchItems_one (by decide) item (by decide), matchItems_nil, isDot]
  split_ifs <;> rfl

/-- The match needs a character before the dot. -/
theorem matchAt_stem (s : Bytes) : matchAt src s (ascii "(.+)%.") =
    if s = [] then .ok none
    else max_expand (fun _ => true) (fun t => .ok (if t.head?.any (· = dot) then
      some (t.tail, [⟨s, .closed (s.length - t.length)⟩]) else none)) s.tail := by
  have start : ascii "(.+)%." = '('.toUInt8 :: ascii ".+)%." := rfl
  have any : ascii ".+)%." = '.'.toUInt8 :: ascii "+)%." := rfl
  have item : FirstItem ('.'.toUInt8 :: ascii "+)%.") (ascii ".") ('+'.toUInt8 :: ascii ")%.") := ⟨rfl, rfl⟩
  rw [matchAt, nested_of_lt (by decide), start, matchItems_start (by decide), start_capture,
    if_neg (by decide), nested_of_lt (by decide), any, matchItems_plus (by decide) item]
  simp only [List.nil_append, stem_rest]
  cases s <;> rfl

/-- The match takes everything before the last dot, if there is something before it. -/
theorem matchAt_stem_some {c : UInt8} {front back : Bytes} (last : ∀ x ∈ back, ¬ decide (x = dot)) :
    matchAt src (c :: front ++ dot :: back) (ascii "(.+)%.") =
      .ok (some (back, [⟨c :: front ++ dot :: back, .closed (front.length + 1)⟩])) := by
  rw [matchAt_stem, List.cons_append, if_neg (List.cons_ne_nil _ _), List.tail_cons,
    max_expand_head_last (fun _ _ => rfl) (decide_eq_true rfl) last, List.tail_cons]
  simp
  omega

theorem matchAt_stem_none {s : Bytes} (none : ∀ x ∈ s.tail, ¬ decide (x = dot)) :
    matchAt src s (ascii "(.+)%.") = .ok .none := by
  rw [matchAt_stem]
  split_ifs
  · rfl
  · exact max_expand_head_none none

/-- `s:match(p)` for an unanchored pattern. -/
theorem string_match_unanchored {s p : Bytes} (plain : cstring p = p) (free : p.head? ≠ some '^'.toUInt8) :
    string_match s p 1 =
      search s (fun sstr q ms => push_captures s ms (some (sstr.take (sstr.length - q.length)))) false p s := by
  have whole : offset s 1 = 0 := rfl
  simp only [string_match, whole, Nat.not_lt_zero, if_false, searchPattern, plain, free, List.drop_zero,
    gt_iff_lt]

theorem firstCapture_none {s p : Bytes} (plain : cstring p = p) (free : p.head? ≠ some '^'.toUInt8)
    (nowhere : ∀ t, t <:+ s → matchAt s t p = .ok none) : firstCapture s p = .ok none := by
  rw [firstCapture, string_match_unanchored plain free, search_none nowhere]
  rfl

/-- The capture of the leftmost match. -/
theorem firstCapture_found {p front back q init : Bytes} {len : ℕ} (plain : cstring p = p)
    (free : p.head? ≠ some '^'.toUInt8)
    (nowhere : ∀ c rest, c :: rest <:+ front → matchAt (front ++ back) (c :: rest ++ back) p = .ok none)
    (found : matchAt (front ++ back) back p = .ok (some (q, [⟨init, .closed len⟩]))) :
    firstCapture (front ++ back) p = .ok (some (init.take len)) := by
  rw [firstCapture, string_match_unanchored plain free, search_append nowhere, search_first found]
  rfl

/-- `s:match("(.+)%.") or s` is the stem. -/
theorem noextension_eq (s : Bytes) : noextension s = .ok (stem s) := by
  have whole (none : ∀ x ∈ s.tail, ¬ decide (x = dot)) : noextension s = .ok s := by
    rw [noextension, firstCapture_none (by decide) (by decide)]
    · rfl
    · intro t suffix
      apply matchAt_stem_none
      intro x member
      exact none x (mem_tail_of_suffix suffix member)
  rw [stem]
  split
  · rename_i c front back split
    obtain ⟨c', isDot, rfl, last⟩ := lastSplit_some split
    obtain rfl : c' = dot := by simpa using isDot
    have found : firstCapture (c :: front ++ dot :: back) (ascii "(.+)%.") =
        .ok (some ((c :: front ++ dot :: back).take (front.length + 1))) := by
      apply @firstCapture_found _ [] (c :: front ++ dot :: back)
      · decide
      · decide
      · intro c rest suffix
        cases List.suffix_nil.mp suffix
      · exact matchAt_stem_some last
    have before : (c :: front ++ dot :: back).take (front.length + 1) = c :: front :=
      List.take_left' (List.length_cons ..)
    rw [noextension, found, before]
    rfl
  · rename_i other
    apply whole
    cases split : lastSplit (· = dot) s with
    | none =>
      intro x member
      exact lastSplit_none split x (List.mem_of_mem_tail member)
    | some parts =>
      obtain ⟨front, back⟩ := parts
      obtain ⟨c', isDot, rfl, last⟩ := lastSplit_some split
      cases front with
      | nil => exact last
      | cons c front => exact absurd split (other c front back)

end Stem

section Extension

variable {src : Bytes}

/-- A character of `%a`. -/
def isLetter (c : UInt8) : Bool := lj_char_isa c LJ_CHAR_ALPHA

/-- The rest of `%.(%a+)$` behind the repetition: the subject ends. -/
theorem extension_rest (s t : Bytes) :
    (nested (0 + 1 + 1) fun depth => matchItems src depth [⟨s, .unfinished⟩] t (ascii ")$")) =
      .ok (if t = [] then some ([], [⟨s, .closed s.length⟩]) else none) := by
  have close : ascii ")$" = ')'.toUInt8 :: ['$'.toUInt8] := rfl
  have unfinished : capture_to_close [⟨s, .unfinished⟩] = some 0 := rfl
  rw [nested_of_lt (by decide), close, matchItems_close, end_capture, unfinished]
  dsimp only
  rw [nested_of_lt (by decide), matchItems_end]
  cases t <;> rfl

theorem matchAt_extension (t : Bytes) : matchAt src t (ascii "%.(%a+)$") =
    if t.head? = some dot ∧ t.tail.head?.any isLetter then
      max_expand isLetter (fun u => .ok (if u = [] then some ([], [⟨t.tail, .closed t.tail.length⟩]) else none))
        t.tail.tail
    else .ok none := by
  have escape : ascii "%.(%a+)$" = L_ESC :: ascii ".(%a+)$" := rfl
  have first : FirstItem (L_ESC :: ascii ".(%a+)$") (ascii "%.") ('('.toUInt8 :: ascii "%a+)$") := ⟨rfl, rfl⟩
  have letters : ascii "%a+)$" = L_ESC :: ascii "a+)$" := rfl
  have second : FirstItem (L_ESC :: ascii "a+)$") (ascii "%a") ('+'.toUInt8 :: ascii ")$") := ⟨rfl, rfl⟩
  rw [matchAt, nested_of_lt (by decide), escape, matchItems_one (by decide) first (by decide)]
  cases t with
  | nil => rfl
  | cons c t =>
    have isDot : singlematch c (ascii "%.") = decide (dot = c) := rfl
    rw [List.head?_cons, Option.any_some, isDot]
    rcases eq_or_ne c dot with rfl | other
    · rw [if_pos (by decide), matchItems_start (by decide), start_capture, if_neg (by decide),
        nested_of_lt (by decide), letters, matchItems_plus (by decide) second]
      simp only [List.nil_append, extension_rest, List.tail_cons, true_and]
      rfl
    · rw [if_neg (by simpa using other.symm), if_neg (fun both => other (Option.some.inj both.1))]

/-- `%.(%a+)$` finds the letters behind the last dot, if there is nothing else behind it. -/
theorem extension_found {front letters : Bytes} (nonempty : letters ≠ [])
    (all : ∀ c ∈ letters, isLetter c) : extension (front ++ dot :: letters) = .ok (some letters) := by
  have found : extension (front ++ dot :: letters) = .ok (some (letters.take letters.length)) := by
    apply firstCapture_found (q := [])
    · decide
    · decide
    · intro c rest suffix
      rw [List.cons_append, matchAt_extension]
      split_ifs with starts
      · apply max_expand_stuck
        · refine ⟨dot, ?_, by decide⟩
          cases rest with
          | nil => exact absurd starts.2 Bool.false_ne_true
          | cons x rest => exact List.mem_append_right rest (List.mem_cons_self ..)
        · intro u more
          rw [if_neg more]
      · rfl
    · obtain ⟨x, rest, rfl⟩ := List.exists_cons_of_ne_nil nonempty
      rw [matchAt_extension, if_pos ⟨rfl, all x (List.mem_cons_self ..)⟩]
      apply max_expand_all
      · intro y member
        exact all y (List.mem_cons_of_mem x member)
      · rfl
  rw [found, List.take_length]

/-- There is no error for other names. -/
theorem extension_ok (name : Bytes) : ∃ found, extension name = .ok found := by
  obtain ⟨r, searched⟩ : ∃ r, string_match name (ascii "%.(%a+)$") 1 = .ok r := by
    rw [string_match_unanchored (by decide) (by decide)]
    apply search_ok
    intro t
    rw [matchAt_extension]
    split_ifs
    · obtain ⟨u, same⟩ := max_expand_eq isLetter (fun u =>
        .ok (if u = [] then some ([], [⟨t.tail, .closed t.tail.length⟩]) else none)) t.tail.tail
      rw [same]
      split_ifs
      · exact .inr ⟨_, _, _, rfl, rfl⟩
      · exact .inl rfl
    · exact .inl rfl
  rw [extension, firstCapture, searched]
  match r with
  | none => exact ⟨_, rfl⟩
  | some [] => exact ⟨_, rfl⟩
  | some (.text text :: _) => exact ⟨_, rfl⟩
  | some (.position n :: _) => exact ⟨_, rfl⟩

end Extension

section Separators

theorem singlematch_separators (x : UInt8) : singlematch x (ascii "[\\/]") = isSeparator x := by
  have set : singlematch x (ascii "[\\/]") = setHolds x true (ascii "\\/]") := rfl
  have first : setHolds x true (ascii "\\/]") =
      if '\\'.toUInt8 = x then true else if '/'.toUInt8 = x then true else false := rfl
  rw [set, first, isSeparator]
  split_ifs <;> simp_all

/-- A substitution of one character for those that match an item. -/
theorem gsub_map {p : Bytes} {holds : UInt8 → Bool} (one : MatchesOne p holds) (plain : cstring p = p)
    (free : p.head? ≠ some '^'.toUInt8) (c : UInt8) (other : c ≠ L_ESC) (s : Bytes) :
    gsub s p (.string [c]) none = .ok (s.map fun x => if holds x then c else x, s.countP holds) := by
  have added (subject : Bytes) (x : UInt8) : add_value subject [] [x] (.string [c]) = .ok [c] := by
    rw [add_value, add_s, if_neg other]
    rfl
  rw [gsub_item one plain free fun subject x _ => added subject x, replaceEach, List.map_eq_flatMap]
  congr 2
  apply List.flatMap_congr
  intro x _
  split_ifs <;> rfl

theorem gsub_separators (s : Bytes) : gsub s (ascii "[\\/]") (.string (ascii ".")) none =
    .ok (s.map fun x => if isSeparator x then dot else x, s.countP isSeparator) := by
  have one : MatchesOne (ascii "[\\/]") isSeparator := by
    have item := @matchesOne_item '['.toUInt8 (ascii "\\/]") (by decide) (by decide +kernel)
    intro src s
    rw [← funext singlematch_separators]
    exact item src s
  exact gsub_map one (by decide) (by decide) dot (by decide) s

end Separators

section Leading

variable {src : Bytes}

/-- `%.%/` matches at the start of the subject or nowhere. -/
theorem matchAt_leading (s : Bytes) : matchAt src s (ascii "%.%/") =
    .ok (if ascii "./" <+: s then some (s.drop 2, []) else none) := by
  have first : FirstItem (L_ESC :: ascii ".%/") (ascii "%.") (ascii "%/") := ⟨rfl, rfl⟩
  have second : FirstItem (L_ESC :: ascii "/") (ascii "%/") [] := ⟨rfl, rfl⟩
  have escape : ascii "%.%/" = L_ESC :: ascii ".%/" := rfl
  have slash : ascii "%/" = L_ESC :: ascii "/" := rfl
  rw [matchAt, nested_of_lt (by decide), escape, matchItems_one (by decide) first (by decide), slash,
    matchItems_one (by decide) second (by decide), matchItems_nil]
  have isDot (c : UInt8) : singlematch c (ascii "%.") = decide (dot = c) := rfl
  have isSlash (c : UInt8) : singlematch c (ascii "%/") = decide ('/'.toUInt8 = c) := rfl
  have leading : ascii "./" = [dot, '/'.toUInt8] := rfl
  rcases s with _ | ⟨c, _ | ⟨d, s⟩⟩
  · rfl
  · simp [isDot, leading]
  · simp only [List.head?_cons, Option.any_some, isDot, isSlash, leading, List.tail_cons, decide_eq_true_eq,
      List.cons_prefix_cons, List.nil_prefix, and_true, List.drop_succ_cons, List.drop_zero, ite_and]
    split_ifs <;> rfl

theorem gsub_leading (path : Bytes) : ∃ count, gsub path (ascii "^%.%/") (.string []) none =
    .ok (if ascii "./" <+: path then path.drop 2 else path, count) := by
  have anchored : gsub path (ascii "^%.%/") (.string []) none =
      gsubLoop path true (ascii "%.%/") (.string []) (path.length + 1) path := rfl
  rw [anchored]
  cases path with
  | nil =>
    rw [gsubLoop, if_neg (Nat.succ_ne_zero _), matchAt_leading]
    exact ⟨0, rfl⟩
  | cons c path =>
    rw [gsubLoop, if_neg (Nat.succ_ne_zero _), matchAt_leading]
    by_cases leading : ascii "./" <+: c :: path
    · have shorter : ((c :: path).drop 2).length < (c :: path).length := by
        rw [List.length_drop, List.length_cons]
        omega
      simp only [if_pos leading, add_value, add_s, if_pos shorter]
      exact ⟨1, rfl⟩
    · simp only [if_neg leading]
      exact ⟨0, rfl⟩

end Leading

section Basename

variable {src : Bytes}

/-- `(.*)` at the end of a pattern captures the rest of the subject. -/
theorem capture_rest (before : Capture) (t : Bytes) :
    matchItems src (0 + 1 + 1 + 1 + 1) [before] t (ascii "(.*)") =
      .ok (some ([], [before, ⟨t, .closed t.length⟩])) := by
  have start : ascii "(.*)" = '('.toUInt8 :: ascii ".*)" := rfl
  have any : ascii ".*)" = '.'.toUInt8 :: ascii "*)" := rfl
  have item : FirstItem ('.'.toUInt8 :: ascii "*)") (ascii ".") ('*'.toUInt8 :: [')'.toUInt8]) := ⟨rfl, rfl⟩
  have unfinished : capture_to_close [before, ⟨t, .unfinished⟩] = some 1 := rfl
  rw [start, matchItems_start (by decide), start_capture, if_neg (by simp [LUA_MAXCAPTURES]), 
    nested_of_lt (by decide), any, matchItems_star (by decide) item]
  apply max_expand_all
  · intro x _
    rfl
  · rw [nested_of_lt (by decide), matchItems_close, end_capture, List.singleton_append, unfinished]
    dsimp only
    rw [nested_of_lt (by decide), matchItems_nil]
    rfl

theorem basename_rest (s t : Bytes) :
    (nested (0 + 1 + 1) fun depth => matchItems src depth [⟨s, .unfinished⟩] t (ascii "[\\/])(.*)")) =
      .ok (if t.head?.any isSeparator then
        some ([], [⟨s, .closed (s.length - t.tail.length)⟩, ⟨t.tail, .closed t.tail.length⟩]) else none) := by
  have set : ascii "[\\/])(.*)" = '['.toUInt8 :: ascii "\\/])(.*)" := rfl
  have item : FirstItem ('['.toUInt8 :: ascii "\\/])(.*)") (ascii "[\\/]") (')'.toUInt8 :: ascii "(.*)") :=
    ⟨by decide +kernel, rfl⟩
  have unfinished : capture_to_close [⟨s, .unfinished⟩] = some 0 := rfl
  rw [nested_of_lt (by decide), set, matchItems_one (by decide) item (by decide)]
  simp only [singlematch_separators, matchItems_close, end_capture, unfinished]
  split_ifs with separated
  · rw [nested_of_lt (by decide), List.modify_cons, if_pos rfl, capture_rest]
  · rfl

/-- `(.*[\/])(.*)` matches from the start to the end, or nowhere. -/
theorem matchAt_basename (s : Bytes) : matchAt src s (ascii "(.*[\\/])(.*)") =
    max_expand (fun _ => true) (fun t => .ok (if t.head?.any isSeparator then
      some ([], [⟨s, .closed (s.length - t.tail.length)⟩, ⟨t.tail, .closed t.tail.length⟩]) else none)) s := by
  have start : ascii "(.*[\\/])(.*)" = '('.toUInt8 :: ascii ".*[\\/])(.*)" := rfl
  have any : ascii ".*[\\/])(.*)" = '.'.toUInt8 :: ascii "*[\\/])(.*)" := rfl
  have item : FirstItem ('.'.toUInt8 :: ascii "*[\\/])(.*)") (ascii ".") ('*'.toUInt8 :: ascii "[\\/])(.*)") :=
    ⟨rfl, rfl⟩
  rw [matchAt, nested_of_lt (by decide), start, matchItems_start (by decide), start_capture,
    if_neg (by decide), nested_of_lt (by decide), any, matchItems_star (by decide) item]
  simp only [List.nil_append, basename_rest]
  rfl

theorem matchAt_basename_none {s : Bytes} (none : ∀ x ∈ s, ¬ isSeparator x) :
    matchAt src s (ascii "(.*[\\/])(.*)") = .ok .none := by
  rw [matchAt_basename, max_expand_head_none none]

/-- The second capture is what is behind the last separator. -/
theorem matchAt_basename_some {front back : Bytes} {c : UInt8} (separates : isSeparator c)
    (last : ∀ x ∈ back, ¬ isSeparator x) :
    matchAt src (front ++ c :: back) (ascii "(.*[\\/])(.*)") =
      .ok (some ([], [⟨front ++ c :: back, .closed (front.length + 1)⟩, ⟨back, .closed back.length⟩])) := by
  rw [matchAt_basename, max_expand_head_last (fun _ _ => rfl) separates last, List.tail_cons]
  simp
  omega

/-- The second capture as a replacement. -/
theorem add_s_second {ms : List Capture} {whole text : Bytes}
    (captured : push_onecapture src ms 1 (some whole) = .ok (.text text)) :
    add_s src ms whole (ascii "%2") = .ok text := by
  have escape : ascii "%2" = [L_ESC, '2'.toUInt8] := rfl
  have digit : lj_char_isa '2'.toUInt8 LJ_CHAR_DIGIT := by decide
  have index : '2'.toUInt8.toNat - '1'.toNat = 1 := rfl
  rw [escape, add_s, if_pos rfl]
  simp only [digit, not_true, if_false, index, captured, add_s]
  rw [if_neg (by decide)]
  exact congrArg Except.ok (List.append_nil text)

/-- `basename` gives what is behind the last separator. -/
theorem basename_eq (path : Bytes) : basename path = .ok (lastPart path) := by
  have unanchored : gsub path (ascii "(.*[\\/])(.*)") (.string (ascii "%2")) none =
      gsubLoop path false (ascii "(.*[\\/])(.*)") (.string (ascii "%2")) (path.length + 1) path := rfl
  rw [basename, unanchored, lastPart]
  cases split : lastSplit isSeparator path with
  | none =>
    rw [gsubLoop_none fun t suffix => matchAt_basename_none fun x member =>
      lastSplit_none split x (suffix.subset member)]
    rfl
  | some parts =>
    obtain ⟨front, back⟩ := parts
    obtain ⟨c, separates, rfl, last⟩ := lastSplit_some split
    have added : add_value (front ++ c :: back) [⟨front ++ c :: back, .closed (front.length + 1)⟩,
        ⟨back, .closed back.length⟩] ((front ++ c :: back).take ((front ++ c :: back).length - 0))
          (.string (ascii "%2")) = .ok back := by
      rw [add_value, @add_s_second _ _ _ (back.take back.length) rfl, List.take_length]
    have more : 0 < (front ++ c :: back).length := by
      rw [List.length_append, List.length_cons]
      omega
    have ended : gsubLoop (front ++ c :: back) false (ascii "(.*[\\/])(.*)") (.string (ascii "%2"))
        (front ++ c :: back).length [] = .ok ([], 0) := by
      rw [gsubLoop, if_neg more.ne', matchAt_basename]
      rfl
    rw [gsubLoop.eq_def, if_neg (Nat.succ_ne_zero _), matchAt_basename_some separates last]
    simp only [List.length_nil, added, if_pos more, Bool.false_eq_true, if_false, Nat.add_sub_cancel, ended]
    simp [substituted, Except.map]

end Basename

section Characters

theorem stem_initial (s : Bytes) : stem s <+: s := by
  rw [stem]
  split
  · rename_i c front back split
    obtain ⟨d, -, whole, -⟩ := lastSplit_some split
    exact ⟨d :: back, whole.symm⟩
  · exact List.prefix_rfl

theorem lastPart_plain {path : Bytes} : ∀ c ∈ lastPart path, ¬ isSeparator c := by
  rw [lastPart]
  split
  · rename_i front back split
    obtain ⟨d, -, -, last⟩ := lastSplit_some split
    exact last
  · rename_i unsplit
    exact lastSplit_none unsplit

theorem dottedName_plain {path : Bytes} : ∀ c ∈ dottedName path, ¬ isSeparator c := by
  intro c member
  obtain ⟨d, -, rfl⟩ := List.mem_map.mp ((stem_initial _).subset member)
  split_ifs with separates
  · decide
  · exact separates

end Characters

theorem dotpath_noextension_eq (path : Bytes) : dotpath_noextension path = .ok (dottedName path) := by
  obtain ⟨count, leading⟩ := gsub_leading path
  rw [dotpath_noextension, leading]
  simp only [bind, Except.bind]
  rw [gsub_separators]
  exact noextension_eq _

end OmniaJit.Bin
