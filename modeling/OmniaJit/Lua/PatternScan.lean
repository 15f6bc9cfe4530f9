import OmniaJit.Lua.PatternSearch

/-! # A subject cut at its matches

`string.gmatch` and `string.gsub` go through the subject in the same way: they cut it into matches and single
characters between them. What the one returns and what the other puts together are both read off these pieces.
-/

namespace OmniaJit.Lua.LibString

/-- A match, or a character that no match covers. -/
inductive Piece where
  | gap (c : UInt8)
  | matched (text : Bytes) (ms : List Capture)

def Piece.text : Piece → Bytes
  | .gap c => [c]
  | .matched text _ => text

def texts (ps : List Piece) : Bytes := ps.flatMap Piece.text

/-- The captures of the matches, in order. -/
def captured (src : Bytes) : List Piece → List (List CaptureValue)
  | [] => []
  | .gap _ :: ps => captured src ps
  | .matched text ms :: ps => values src ms (some text) :: captured src ps

/-- The pieces with up to `n` matches replaced, and how many were. -/
def substitute (src : Bytes) (repl : Repl) : ℕ → List Piece → Except PatternError (Bytes × ℕ)
  | 0, ps => .ok (texts ps, 0)
  | _ + 1, [] => .ok ([], 0)
  | n + 1, .gap c :: ps => (substitute src repl (n + 1) ps).map fun (rest, count) => (c :: rest, count)
  | n + 1, .matched text ms :: ps =>
    match add_value src ms text repl with
    | .error e => .error e
    | .ok value => substituted value (substitute src repl n ps)

section Pieces

variable {src : Bytes} {items : List PatternItem}

/-- The pieces of the subject from `s` on. Behind an empty match there is always a character. -/
def pieces (src : Bytes) (items : List PatternItem) (s : Bytes) : List Piece :=
  match (results src items [] s).head? with
  | some (e, ms) =>
    let whole := Piece.matched (s.take (s.length - e.length)) ms
    if e.length < s.length then whole :: pieces src items e
    else
      match s with
      | [] => [whole]
      | c :: s => whole :: .gap c :: pieces src items s
  | none =>
    match s with
    | [] => []
    | c :: s => .gap c :: pieces src items s
termination_by s.length

/-- The text of a match and what follows it. -/
theorem matched_append {s : Bytes} {r : Bytes × List Capture} (found : (results src items [] s).head? = some r) :
    s.take (s.length - r.1.length) ++ r.1 = s := by
  obtain ⟨front, rfl⟩ := (Accepts.of_head? found).suffix
  rw [List.length_append, Nat.add_sub_cancel, List.take_left]

/-- A match that does not go on is empty. -/
theorem matched_empty {s : Bytes} {r : Bytes × List Capture} (found : (results src items [] s).head? = some r)
    (stays : ¬ r.1.length < s.length) : r.1 = s ∧ s.take (s.length - r.1.length) = [] := by
  have suffix := (Accepts.of_head? found).suffix
  obtain same := suffix.eq_of_length_le (Nat.not_lt.mp stays)
  rw [same, Nat.sub_self]
  exact ⟨rfl, List.take_zero⟩

section Equations

variable {s e : Bytes} {ms : List Capture} {c : UInt8}

theorem pieces_longer (found : (results src items [] s).head? = some (e, ms)) (shorter : e.length < s.length) :
    pieces src items s = .matched (s.take (s.length - e.length)) ms :: pieces src items e := by
  rw [pieces.eq_def src items s, found]
  exact if_pos shorter

theorem pieces_last (found : (results src items [] []).head? = some (e, ms)) :
    pieces src items [] = [.matched [] ms] := by
  rw [pieces, found]
  dsimp only
  rw [List.length_nil, if_neg (Nat.not_lt_zero _), List.take_nil]

theorem pieces_empty (found : (results src items [] (c :: s)).head? = some (e, ms))
    (stays : ¬ e.length < (c :: s).length) :
    pieces src items (c :: s) = .matched [] ms :: .gap c :: pieces src items s := by
  rw [pieces, found]
  dsimp only
  rw [if_neg stays, (matched_empty found stays).2]

theorem pieces_nil (nothing : (results src items [] []).head? = none) : pieces src items [] = [] := by
  rw [pieces, nothing]

theorem pieces_gap (nothing : (results src items [] (c :: s)).head? = none) :
    pieces src items (c :: s) = .gap c :: pieces src items s := by
  rw [pieces, nothing]

end Equations

theorem texts_cons (piece : Piece) (ps : List Piece) : texts (piece :: ps) = piece.text ++ texts ps :=
  List.flatMap_cons ..

/-- The pieces put together are the subject. -/
theorem texts_pieces (s : Bytes) : texts (pieces src items s) = s := by
  induction s using pieces.induct src items with
  | case1 s e ms found shorter ih =>
    rw [pieces_longer found shorter, texts_cons, ih]
    exact matched_append found
  | case2 e ms found stays =>
    rw [pieces_last found]
    rfl
  | case3 e ms c s found stays ih =>
    rw [pieces_empty found stays, texts_cons, texts_cons, ih]
    rfl
  | case4 nothing =>
    rw [pieces_nil nothing]
    rfl
  | case5 c s nothing ih =>
    rw [pieces_gap nothing, texts_cons, ih]
    rfl

/-- What stands in front of a piece: nothing, or another piece. -/
def Behind (front : Option Piece) (src : Bytes) (items : List PatternItem) : List Piece → Prop
  | [] => True
  | .gap c :: ps =>
    ((∃ ms, front = some (.matched [] ms)) ∨ ∀ r, ¬ Accepts src items [] (c :: texts ps) r) ∧
      Behind (some (.gap c)) src items ps
  | .matched text ms :: ps =>
    (results src items [] (text ++ texts ps)).head? = some (texts ps, ms) ∧
      Behind (some (.matched text ms)) src items ps

theorem behind_pieces (front : Option Piece) (s : Bytes) : Behind front src items (pieces src items s) := by
  induction s using pieces.induct src items generalizing front with
  | case1 s e ms found shorter ih =>
    rw [pieces_longer found shorter]
    refine ⟨?_, ih _⟩
    rw [texts_pieces, matched_append found, found]
  | case2 e ms found stays =>
    rw [pieces_last found]
    refine ⟨?_, trivial⟩
    rw [List.nil_append, texts, List.flatMap_nil, found]
    exact congrArg (fun e => some (e, ms)) (matched_empty found stays).1
  | case3 e ms c s found stays ih =>
    rw [pieces_empty found stays]
    refine ⟨?_, .inl ⟨ms, rfl⟩, ih _⟩
    rw [List.nil_append, texts_cons, texts_pieces, Piece.text, List.singleton_append, found]
    exact congrArg (fun e => some (e, ms)) (matched_empty found stays).1
  | case4 nothing =>
    rw [pieces_nil nothing]
    trivial
  | case5 c s nothing ih =>
    rw [pieces_gap nothing]
    refine ⟨.inr ?_, ih _⟩
    rw [texts_pieces]
    exact head?_results_eq_none nothing

end Pieces

section Loops

variable {src p : Bytes} {items : List PatternItem}

/-- `string.gmatch` returns the captures of the pieces. -/
theorem gmatchFrom_pieces (good : ValidPattern p items) (s : Bytes) :
    gmatchFrom src p s = .ok (captured src (pieces src items s)) := by
  induction s using pieces.induct src items with
  | case1 s e ms found shorter ih =>
    have finished := (Accepts.of_head? found).finished good.2
    rw [pieces_longer found shorter, gmatchFrom.eq_def src p s, good.matchAt, found]
    simp only [push_captures_finished finished, if_pos shorter, ih]
    rfl
  | case2 e ms found stays =>
    have finished := (Accepts.of_head? found).finished good.2
    rw [pieces_last found, gmatchFrom, good.matchAt, found]
    simp only [push_captures_finished finished, if_neg stays, List.take_nil]
    rfl
  | case3 e ms c s found stays ih =>
    have finished := (Accepts.of_head? found).finished good.2
    rw [pieces_empty found stays, gmatchFrom, good.matchAt, found]
    simp only [push_captures_finished finished, if_neg stays, ih, (matched_empty found stays).2]
    rfl
  | case4 nothing =>
    rw [pieces_nil nothing, gmatchFrom, good.matchAt, nothing]
    rfl
  | case5 c s nothing ih =>
    rw [pieces_gap nothing, gmatchFrom, good.matchAt, nothing]
    exact ih

theorem substitute_zero (repl : Repl) (ps : List Piece) : substitute src repl 0 ps = .ok (texts ps, 0) := by
  cases ps <;> rw [substitute]

theorem substitute_nil (repl : Repl) (n : ℕ) : substitute src repl n [] = .ok ([], 0) := by
  cases n <;> rfl

theorem substitute_gap (repl : Repl) (n : ℕ) (c : UInt8) (ps : List Piece) :
    substitute src repl n (.gap c :: ps) =
      (substitute src repl n ps).map fun (rest, count) => (c :: rest, count) := by
  cases n with
  | zero =>
    rw [substitute_zero, substitute_zero]
    rfl
  | succ n => rfl

/-- `string.gsub` replaces the matches among the pieces. -/
theorem gsubLoop_pieces (good : ValidPattern p items) (repl : Repl) (n : ℕ) (s : Bytes) :
    gsubLoop src false p repl n s = substitute src repl n (pieces src items s) := by
  induction s using pieces.induct src items generalizing n with
  | case1 s e ms found shorter ih =>
    cases n with
    | zero => rw [gsubLoop.eq_def, if_pos rfl, substitute_zero, texts_pieces]
    | succ n =>
      rw [pieces_longer found shorter, gsubLoop.eq_def, if_neg (Nat.succ_ne_zero n), good.matchAt, found, substitute]
      dsimp only
      cases add_value src ms (s.take (s.length - e.length)) repl with
      | error e => rfl
      | ok value => simp only [if_pos shorter, Bool.false_eq_true, if_false, Nat.add_sub_cancel, ih]
  | case2 e ms found stays =>
    cases n with
    | zero => rw [gsubLoop.eq_def, if_pos rfl, substitute_zero, texts_pieces]
    | succ n =>
      rw [pieces_last found, gsubLoop.eq_def, if_neg (Nat.succ_ne_zero n), good.matchAt, found, substitute]
      simp only [(matched_empty found stays).2]
      cases add_value src ms [] repl with
      | error e => rfl
      | ok value => simp only [if_neg stays, substitute_nil, substituted, Except.map, List.append_nil]
  | case3 e ms c s found stays ih =>
    cases n with
    | zero => rw [gsubLoop.eq_def, if_pos rfl, substitute_zero, texts_pieces]
    | succ n =>
      rw [pieces_empty found stays, gsubLoop.eq_def, if_neg (Nat.succ_ne_zero n), good.matchAt, found, substitute]
      simp only [(matched_empty found stays).2]
      cases add_value src ms [] repl with
      | error e => rfl
      | ok value =>
        simp only [if_neg stays, Bool.false_eq_true, if_false, Nat.add_sub_cancel, ih, substitute_gap]
        cases substitute src repl n (pieces src items s) with
        | error e => rfl
        | ok result => simp only [substituted, Except.map, List.append_assoc, List.singleton_append]
  | case4 nothing =>
    cases n with
    | zero => rw [gsubLoop.eq_def, if_pos rfl, substitute_zero, texts_pieces]
    | succ n =>
      rw [pieces_nil nothing, gsubLoop.eq_def, if_neg (Nat.succ_ne_zero n), good.matchAt, nothing]
      rfl
  | case5 c s nothing ih =>
    cases n with
    | zero => rw [gsubLoop.eq_def, if_pos rfl, substitute_zero, texts_pieces]
    | succ n =>
      rw [pieces_gap nothing, gsubLoop.eq_def, if_neg (Nat.succ_ne_zero n), good.matchAt, nothing, substitute_gap,
        ← ih]
      rfl

/-- `string.gmatch` and `string.gsub` with a valid pattern go through the same pieces of the subject. -/
theorem gmatch_gsub_pieces (good : ValidPattern (cstring p) items) (free : (cstring p).head? ≠ some '^'.toUInt8)
    (s : Bytes) : ∃ ps, texts ps = s ∧ Behind none s items ps ∧ gmatch s p = .ok (captured s ps) ∧
      ∀ repl max_s, gsub s p repl max_s = substitute s repl (max_s.getD (s.length + 1)).toNat ps := by
  refine ⟨pieces s items s, texts_pieces s, behind_pieces none s, gmatchFrom_pieces good s, fun repl max_s => ?_⟩
  rw [gsub, if_neg free]
  exact gsubLoop_pieces good repl _ s

theorem gmatch_gsub_pieces_pair : ∃ ps, texts ps = ascii "a=a b=c" ∧
    gmatch (ascii "a=a b=c") (ascii "(%w+)=%1") = .ok (captured (ascii "a=a b=c") ps) := by
  have good : ValidPattern (cstring (ascii "(%w+)=%1")) pairItems := ⟨by decide +kernel, by decide⟩
  obtain ⟨ps, whole, -, returned, -⟩ := gmatch_gsub_pieces good (by decide) (ascii "a=a b=c")
  exact ⟨ps, whole, returned⟩

/-- Putting each match in its own place keeps the subject; the count is that of the matches. -/
theorem substitute_whole {repl : Repl} (same : ∀ ms text, add_value src ms text repl = .ok text) {n : ℕ}
    {ps : List Piece} (enough : (captured src ps).length ≤ n) :
    substitute src repl n ps = .ok (texts ps, (captured src ps).length) := by
  induction ps generalizing n with
  | nil => exact substitute_nil repl n
  | cons piece ps ih =>
    cases piece with
    | gap c =>
      rw [substitute_gap, ih enough]
      rfl
    | matched text ms =>
      cases n with
      | zero => cases enough
      | succ n =>
        rw [substitute, same, ih (Nat.le_of_succ_le_succ enough)]
        rfl

/-- There are at most as many matches as positions. -/
theorem captured_pieces_length (s : Bytes) : (captured src (pieces src items s)).length ≤ s.length + 1 := by
  induction s using pieces.induct src items with
  | case1 s e ms found shorter ih =>
    rw [pieces_longer found shorter, captured, List.length_cons]
    omega
  | case2 e ms found stays =>
    rw [pieces_last found]
    exact Nat.le_refl 1
  | case3 e ms c s found stays ih =>
    rw [pieces_empty found stays, captured, captured, List.length_cons, List.length_cons]
    omega
  | case4 nothing =>
    rw [pieces_nil nothing]
    exact Nat.zero_le 1
  | case5 c s nothing ih =>
    rw [pieces_gap nothing, captured, List.length_cons]
    omega

/-- `string.gsub(s, p, "%0")` gives back the string and the number of matches that `string.gmatch` returns. -/
theorem gsub_whole (good : ValidPattern (cstring p) items) (free : (cstring p).head? ≠ some '^'.toUInt8)
    (s : Bytes) : ∃ matches_, gmatch s p = .ok matches_ ∧
      gsub s p (.string (ascii "%0")) none = .ok (s, matches_.length) := by
  refine ⟨captured s (pieces s items s), gmatchFrom_pieces good s, ?_⟩
  have all : (none.getD ((s.length : ℤ) + 1)).toNat = s.length + 1 := Int.toNat_natCast _
  have same (ms : List Capture) (text : Bytes) : add_value s ms text (.string (ascii "%0")) = .ok text := by
    have zero : ascii "%0" = [L_ESC, '0'.toUInt8] := rfl
    have digit : lj_char_isa '0'.toUInt8 LJ_CHAR_DIGIT = true := by decide
    rw [zero, add_value, add_s, if_pos rfl, add_s]
    simp only [digit, not_true_eq_false, if_false, if_true]
    exact congrArg Except.ok (List.append_nil text)
  rw [gsub, if_neg free, gsubLoop_pieces good, all, substitute_whole same (captured_pieces_length s),
    texts_pieces]

theorem gsub_whole_pair : ∃ matches_, gmatch (ascii "a=a b=c") (ascii "(%w+)=%1") = .ok matches_ ∧
    gsub (ascii "a=a b=c") (ascii "(%w+)=%1") (.string (ascii "%0")) none =
      .ok (ascii "a=a b=c", matches_.length) := by
  have good : ValidPattern (cstring (ascii "(%w+)=%1")) pairItems := ⟨by decide +kernel, by decide⟩
  exact gsub_whole good (by decide) (ascii "a=a b=c")

end Loops

end OmniaJit.Lua.LibString
