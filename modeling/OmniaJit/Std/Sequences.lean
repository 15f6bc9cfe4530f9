import OmniaJit.Data.Words
import OmniaJit.Lua.PatternScan

/-! # The sequences of a text

`string.to_seq`, `string.word_to_seq` and `string.line_to_seq` collect what `string.gmatch` returns for a
pattern each. The first two give the words of the text; the last one gives its lines, but leaves out the empty
ones and puts an empty one at the end.
-/

namespace OmniaJit.Std

open OmniaJit.Data OmniaJit.Lua OmniaJit.Lua.LibString

/-- The loop of the three functions: the first value of each match. -/
def to_seq (str p : Bytes) : Except PatternError (List CaptureValue) :=
  (gmatch str p).map fun captures => captures.filterMap List.head?

def s_to_seq (str : Bytes) : Except PatternError (List CaptureValue) := to_seq str (ascii "%S+")

def word_to_seq (str : Bytes) : Except PatternError (List CaptureValue) := to_seq str (ascii "%w+")

/-- A missing text has no lines. -/
def line_to_seq (str : Option Bytes) : Except PatternError (List CaptureValue) :=
  match str with
  | none => .ok []
  | some str => to_seq str (ascii "([^\n]*)\n*")

section Words

variable {src item : Bytes}

/-- The longest repetition comes last. -/
theorem runs_getLast? (single : UInt8 → Bool) (s : Bytes) : (runs single s).getLast? = some (s.dropWhile single) := by
  induction s with
  | nil => rfl
  | cons c s ih =>
    rw [runs, List.dropWhile_cons]
    split_ifs
    · rw [List.getLast?_cons, ih, Option.getD_some]
    · rfl

theorem head?_flatMap {α β : Type} {l : List α} {f : α → List β} {a : α} {b : β} (first : l.head? = some a)
    (here : (f a).head? = some b) : (l.flatMap f).head? = some b := by
  cases l with
  | nil => cases first
  | cons x l =>
    obtain rfl := Option.some.inj first
    rw [List.flatMap_cons, List.head?_append, here, Option.some_or]

theorem results_plus {c : UInt8} (holds : singlematch c item) (s : Bytes) :
    (results src [.single item .plus] [] (c :: s)).head? = some (s.dropWhile (singlematch · item), []) := by
  rw [results_single, Suffix.rests, if_pos (by simpa using holds), List.tail_cons]
  apply head?_flatMap _ rfl
  rw [List.head?_reverse]
  exact runs_getLast? _ s

theorem results_plus_none {c : UInt8} (fails : ¬ singlematch c item) (s : Bytes) :
    (results src [.single item .plus] [] (c :: s)).head? = none := by
  rw [results_single, Suffix.rests, if_neg (by simpa using fails), List.flatMap_nil, List.head?_nil]

/-- A pattern of one item that repeats matches the words of its characters. -/
theorem captured_plus (s : Bytes) : captured src (pieces src [.single item .plus] s) =
    (stretches (singlematch · item) s).map fun word => [.text word] := by
  induction s using stretches.induct (singlematch · item) with
  | case1 =>
    rw [pieces_nil rfl, stretches]
    rfl
  | case2 c s here ih =>
    have found := @results_plus src item c here s
    have shorter : (s.dropWhile (singlematch · item)).length < (c :: s).length :=
      Nat.lt_succ_of_le (List.dropWhile_sublist _).length_le
    have word : (c :: s).take ((c :: s).length - (s.dropWhile (singlematch · item)).length) =
        c :: s.takeWhile (singlematch · item) := by
      apply List.append_cancel_right
      rw [matched_append found, List.cons_append, List.takeWhile_append_dropWhile]
    rw [pieces_longer found shorter, captured, ih, stretches, if_pos here, word]
    rfl
  | case3 c s fails ih =>
    rw [pieces_gap (results_plus_none fails s), captured, ih]
    exact congrArg _ (@stretches_skip _ (singlematch · item) c s fails).symm

theorem lj_char_isspace (c : UInt8) : lj_char_isa c LJ_CHAR_SPACE = decide (c = 32 ∨ 9 ≤ c ∧ c ≤ 13) := by
  have all : ∀ n < 256, lj_char_isa (UInt8.ofNat n) LJ_CHAR_SPACE =
      decide (UInt8.ofNat n = 32 ∨ 9 ≤ UInt8.ofNat n ∧ UInt8.ofNat n ≤ 13) := by decide +kernel
  rw [← UInt8.ofNat_toNat (x := c)]
  exact all c.toNat c.toNat_lt

/-- A blank, or one of the controls from tab to carriage return. -/
def isSpace (c : UInt8) : Bool := decide (c = 32 ∨ 9 ≤ c ∧ c ≤ 13)

def isWord (c : UInt8) : Bool := lj_char_isa c LJ_CHAR_ALNUM

theorem to_seq_plus {p item : Bytes} (good : ValidPattern (cstring p) [.single item .plus]) (str : Bytes) :
    to_seq str p = .ok ((stretches (singlematch · item) str).map CaptureValue.text) := by
  rw [to_seq, gmatch, gmatchFrom_pieces good, captured_plus, Except.map, List.filterMap_map]
  exact congrArg Except.ok (congrFun (List.filterMap_eq_map ..) _)

/-- `string.to_seq` gives the words between the white space, `string.word_to_seq` those of letters and digits. -/
theorem to_seq_words (str : Bytes) :
    s_to_seq str = .ok ((stretches (!isSpace ·) str).map CaptureValue.text) ∧
      word_to_seq str = .ok ((stretches isWord str).map CaptureValue.text) := by
  have spaces : (singlematch · (ascii "%S")) = (!isSpace ·) := by
    funext c
    have class_ : singlematch c (ascii "%S") = !lj_char_isa c LJ_CHAR_SPACE := rfl
    rw [class_, lj_char_isspace, isSpace]
  have words : (singlematch · (ascii "%w")) = isWord := rfl
  constructor
  · rw [s_to_seq, @to_seq_plus _ (ascii "%S") ⟨by decide +kernel, by decide⟩, spaces]
  · rw [word_to_seq, @to_seq_plus _ (ascii "%w") ⟨by decide +kernel, by decide⟩, words]

end Words

section Lines

variable {src : Bytes}

/-- The items of `([^\n]*)\n*`. -/
def lineItems : List PatternItem :=
  [.start, .single (ascii "[^\n]") .star, .close, .single (ascii "\n") .star]

theorem star_head? {item : Bytes} {items : List PatternItem} {ms : List Capture} {s : Bytes}
    {r : Bytes × List Capture} (found : (results src items ms (s.dropWhile (singlematch · item))).head? = some r) :
    (results src (.single item .star :: items) ms s).head? = some r := by
  rw [results_single, Suffix.rests]
  apply head?_flatMap _ found
  rw [List.head?_reverse]
  exact runs_getLast? _ s

theorem results_line (s : Bytes) : (results src lineItems [] s).head? =
    some ((s.dropWhile (· ≠ newline)).dropWhile (· = newline),
      [⟨s, .closed (s.length - (s.dropWhile (· ≠ newline)).length)⟩]) := by
  have inside : (singlematch · (ascii "[^\n]")) = (· ≠ newline : UInt8 → Bool) := by
    funext c
    have set : singlematch c (ascii "[^\n]") = if newline = c then false else true := rfl
    rw [set]
    by_cases same : c = newline <;> simp [same, eq_comm]
  have outside : (singlematch · (ascii "\n")) = (· = newline : UInt8 → Bool) := by
    funext c
    exact decide_eq_decide.mpr eq_comm
  rw [lineItems, results, PatternItem.step, List.flatMap_singleton]
  apply star_head?
  rw [inside, results, PatternItem.step]
  have last : capture_to_close ([] ++ [⟨s, .unfinished⟩]) = some 0 := rfl
  rw [last, Option.toList_some, List.map_singleton, List.flatMap_singleton]
  apply star_head?
  rw [outside]
  rfl

/-- The lines that are not empty, an empty one in front if the text starts with a line end, and one behind. -/
def lineSequence (s : Bytes) : List Bytes :=
  (if s.head? = some newline then [[]] else []) ++ stretches (· ≠ newline) s ++ [[]]

theorem stretches_dropWhile (s : Bytes) :
    stretches (· ≠ newline) (s.dropWhile (· = newline)) = stretches (· ≠ newline) s := by
  have gap : ∀ c ∈ s.takeWhile (· = newline), ¬ decide (c ≠ newline) := by
    intro c member
    simpa using List.mem_takeWhile_imp member
  have skip := stretches_gap gap (l := s.dropWhile (· = newline))
  rwa [List.takeWhile_append_dropWhile, eq_comm] at skip

/-- The first line, and the lines behind its line ends. -/
theorem lineSequence_cons {s : Bytes} (more : s ≠ []) :
    lineSequence s = s.takeWhile (· ≠ newline) ::
      lineSequence ((s.dropWhile (· ≠ newline)).dropWhile (· = newline)) := by
  have plain : ((s.dropWhile (· ≠ newline)).dropWhile (· = newline)).head? ≠ some newline := by
    intro here
    have stop := @dropWhile_head _ (· = newline) (s.dropWhile (· ≠ newline))
    rw [here] at stop
    exact stop (by decide)
  rw [lineSequence, lineSequence, if_neg plain, List.nil_append, stretches_dropWhile]
  by_cases first : s.head? = some newline
  · have stop := @takeWhile_stop _ (· ≠ newline) s (by rw [first]; decide)
    rw [if_pos first, stop.1, stop.2]
    rfl
  · have nonempty : s.takeWhile (· ≠ newline) ≠ [] := by
      cases s with
      | nil => exact absurd rfl more
      | cons c s =>
        rw [List.takeWhile_cons, if_pos (by simpa using first)]
        exact List.cons_ne_nil _ _
    have word := stretches_word nonempty (fun c member => List.mem_takeWhile_imp member)
      (@dropWhile_head _ (· ≠ newline) s)
    rw [List.takeWhile_append_dropWhile] at word
    rw [if_neg first, word]
    rfl

/-- The text of the capture is the line. -/
theorem values_line (s : Bytes) (whole : Option Bytes) :
    values src [⟨s, .closed (s.length - (s.dropWhile (· ≠ newline)).length)⟩] whole =
      [.text (s.takeWhile (· ≠ newline))] := by
  have length := congrArg List.length (@List.takeWhile_append_dropWhile _ (· ≠ newline) s)
  rw [List.length_append] at length
  have line : s.take (s.length - (s.dropWhile (· ≠ newline)).length) = s.takeWhile (· ≠ newline) := by
    rw [← length, Nat.add_sub_cancel]
    exact (List.prefix_iff_eq_take.mp (List.takeWhile_prefix _)).symm
  rw [values, if_neg (List.cons_ne_nil _ _), List.map_singleton]
  exact congrArg (fun text => [CaptureValue.text text]) line

theorem line_shorter (c : UInt8) (s : Bytes) :
    (((c :: s).dropWhile (· ≠ newline)).dropWhile (· = newline)).length < (c :: s).length := by
  rw [List.dropWhile_cons]
  split_ifs with other
  · exact Nat.lt_succ_of_le
      ((List.dropWhile_sublist _).trans (List.dropWhile_sublist _)).length_le
  · rw [List.dropWhile_cons, if_pos (by simpa using other)]
    exact Nat.lt_succ_of_le (List.dropWhile_sublist _).length_le

theorem captured_lineItems (s : Bytes) :
    captured src (pieces src lineItems s) = (lineSequence s).map fun line => [.text line] := by
  induction s using pieces.induct src lineItems with
  | case1 s e ms found shorter ih =>
    rw [pieces_longer found shorter, captured, ih]
    obtain ⟨rfl, rfl⟩ := Prod.mk.inj (Option.some.inj (found.symm.trans (results_line s)))
    have more : s ≠ [] := by
      rintro rfl
      exact Nat.not_lt_zero _ shorter
    rw [values_line, lineSequence_cons more, List.map_cons]
  | case2 e ms found stays =>
    rw [pieces_last found, captured]
    obtain ⟨rfl, rfl⟩ := Prod.mk.inj (Option.some.inj (found.symm.trans (results_line [])))
    rw [values_line, lineSequence, stretches]
    rfl
  | case3 e ms c s found stays ih =>
    obtain ⟨rfl, -⟩ := Prod.mk.inj (Option.some.inj (found.symm.trans (results_line (c :: s))))
    exact absurd (line_shorter c s) stays
  | case4 nothing => cases nothing.symm.trans (results_line [])
  | case5 c s nothing ih => cases nothing.symm.trans (results_line (c :: s))

/-- `string.line_to_seq` gives the lines that are not empty, an empty one in front if the text starts with a line
end, and an empty one behind them in any case. -/
theorem line_to_seq_eq (str : Bytes) : line_to_seq (some str) = .ok ((lineSequence str).map CaptureValue.text) := by
  have good : ValidPattern (cstring (ascii "([^\n]*)\n*")) lineItems := ⟨by decide +kernel, by decide⟩
  rw [line_to_seq, to_seq, gmatch, gmatchFrom_pieces good, captured_lineItems, Except.map, List.filterMap_map]
  exact congrArg Except.ok (congrFun (List.filterMap_eq_map ..) _)

end Lines

end OmniaJit.Std
