import Mathlib

/-! # Token recognition of the shell

Words, operators and logical lines of a shell script, as an automaton over its characters. A word
keeps for each of its characters whether it was quoted or belongs to an expansion, which is all
that quote removal and the later expansions look at. The extent of `$(…)` and `${…}` is found by
matching brackets; here-documents are not read.
-/

namespace OmniaJit.Posix.Shell

/-- What encloses the next character of a word. -/
inductive Context where
  | single
  | double
  /-- `$(…)`, and a parenthesis inside one. -/
  | paren
  /-- `${…}`. -/
  | brace
  | backquote
deriving DecidableEq, Repr

/-- A character of a word after quote removal. -/
inductive Piece where
  | bare (c : Char)
  | quoted (c : Char)
  /-- Part of a parameter expansion or a command substitution. -/
  | expansion (c : Char)
deriving DecidableEq, Repr

def Piece.char : Piece → Char
  | .bare c | .quoted c | .expansion c => c

@[simp] theorem Piece.char_bare (c : Char) : (Piece.bare c).char = c := rfl

@[simp] theorem Piece.char_quoted (c : Char) : (Piece.quoted c).char = c := rfl

@[simp] theorem Piece.char_expansion (c : Char) : (Piece.expansion c).char = c := rfl

def Piece.expands : Piece → Bool
  | .expansion _ => true
  | _ => false

/-- What the character before the next one means for it. -/
inductive Previous where
  | plain | backslash | dollar
deriving DecidableEq, Repr

/-- The state of reading a word. -/
structure Reader where
  stack : List Context := []
  previous : Previous := .plain
deriving DecidableEq, Repr

def isBlank (c : Char) : Bool := c = ' ' || c = '\t'

/-- The characters of the operators. -/
def isOperatorChar (c : Char) : Bool := c ∈ ['|', '&', ';', '<', '>', '(', ')']

/-- An unquoted character that is never part of a word. -/
def endsWord (c : Char) : Bool := isBlank c || c = '\n' || isOperatorChar c

/-- The characters that quote others and vanish. -/
def isQuote (c : Char) : Bool := c ∈ ['\\', '\'', '"']

/-- The characters that start an expansion. -/
def startsExpansion (c : Char) : Bool := c ∈ ['$', '`']

/-- A character that stands for itself everywhere in a word. -/
def isPlain (c : Char) : Bool := !endsWord c && !isQuote c && !startsExpansion c

/-- The piece of a character without a meaning of its own. -/
def charPiece (stack : List Context) (c : Char) : Piece :=
  match stack with
  | [] => .bare c
  | .single :: _ | .double :: _ => .quoted c
  | _ => .expansion c

@[simp] theorem charPiece_char (stack : List Context) (c : Char) : (charPiece stack c).char = c := by
  unfold charPiece
  split <;> rfl

/-- A character where quotes and expansions may start. -/
def opened (stack : List Context) (c : Char) : List Piece × Reader :=
  if c = '\\' then ([], { stack := stack, previous := .backslash })
  else if c = '\'' then ([], { stack := .single :: stack })
  else if c = '"' then ([], { stack := .double :: stack })
  else if c = '$' then ([.expansion c], { stack := stack, previous := .dollar })
  else if c = '\x60' then ([.expansion c], { stack := .backquote :: stack })
  else ([charPiece stack c], { stack := stack })

/-- A character that is not escaped, unless the word ends before it. -/
def unescaped (stack : List Context) (c : Char) : Option (List Piece × Reader) :=
  match stack with
  | [] => if endsWord c then none else some (opened stack c)
  | .single :: outer =>
      if c = '\'' then some ([], { stack := outer })
      else some ([.quoted c], { stack := stack })
  | .double :: outer =>
      if c = '"' then some ([], { stack := outer })
      else if c = '\'' then some ([.quoted c], { stack := stack })
      else some (opened stack c)
  | .paren :: outer =>
      if c = ')' then some ([.expansion c], { stack := outer })
      else if c = '(' then some ([.expansion c], { stack := .paren :: stack })
      else some (opened stack c)
  | .brace :: outer =>
      if c = '}' then some ([.expansion c], { stack := outer }) else some (opened stack c)
  | .backquote :: outer =>
      if c = '\x60' then some ([.expansion c], { stack := outer })
      else if c = '\\' then some ([], { stack := stack, previous := .backslash })
      else some ([.expansion c], { stack := stack })

/-- A character after a backslash. Between double quotes a backslash is itself before most
characters, and a line end after one vanishes with it. -/
def escaped (stack : List Context) (c : Char) : List Piece :=
  match stack with
  | [] => if c = '\n' then [] else [.quoted c]
  | .double :: _ =>
      if c = '\n' then []
      else if startsExpansion c ∨ c = '"' ∨ c = '\\' then [.quoted c]
      else [.quoted '\\', .quoted c]
  | _ => [.expansion c]

/-- Read one more character of a word, unless the word ends before it. -/
def Reader.advance (r : Reader) (c : Char) : Option (List Piece × Reader) :=
  match r.previous with
  | .plain => unescaped r.stack c
  | .backslash => some (escaped r.stack c, { stack := r.stack })
  | .dollar =>
      if c = '(' then some ([.expansion c], { stack := .paren :: r.stack })
      else if c = '{' then some ([.expansion c], { stack := .brace :: r.stack })
      else unescaped r.stack c

/-- Read all of a text as part of a word. -/
def Reader.feed (r : Reader) : List Char → Option (List Piece × Reader)
  | [] => some ([], r)
  | c :: text =>
    match r.advance c with
    | none => none
    | some (pieces, r) => (r.feed text).map fun fed => (pieces ++ fed.1, fed.2)

/-- What reading one character can do. -/
inductive Advance (r : Reader) (c : Char) : List Piece → Reader → Prop
  | escaped (after : r.previous = .backslash) : Advance r c (escaped r.stack c) { stack := r.stack }
  | opened (inside : r.stack = [] → endsWord c = false) :
      Advance r c (opened r.stack c).1 (opened r.stack c).2
  | kept {piece : Piece} (same : piece.char = c) (inside : r.stack ≠ []) :
      Advance r c [piece] { stack := r.stack }
  | closeQuote {outer : List Context} (quote : isQuote c) (inside : r.stack ≠ []) :
      Advance r c [] { stack := outer }
  | bracket {stack : List Context} (bracket : c ∈ ['(', ')', '{', '}', '\x60'])
      (inside : r.stack = [] → r.previous = .dollar) : Advance r c [.expansion c] { stack := stack }
  | escape (backslash : c = '\\') (inside : r.stack ≠ []) :
      Advance r c [] { stack := r.stack, previous := .backslash }

theorem unescaped_cases {r : Reader} {c : Char} {next : List Piece × Reader}
    (step : unescaped r.stack c = some next) : Advance r c next.1 next.2 := by
  obtain ⟨stack, previous⟩ := r
  cases stack with
  | nil =>
    simp only [unescaped] at step
    split_ifs at step with ends
    obtain rfl := Option.some.inj step
    exact .opened fun _ => by simpa using ends
  | cons context outer =>
    cases context with
    | single =>
      simp only [unescaped] at step
      split_ifs at step with closes <;> obtain rfl := Option.some.inj step
      · exact .closeQuote (by simp [closes, isQuote]) nofun
      · exact .kept rfl nofun
    | double =>
      simp only [unescaped] at step
      split_ifs at step with closes single <;> obtain rfl := Option.some.inj step
      · exact .closeQuote (by simp [closes, isQuote]) nofun
      · exact .kept rfl nofun
      · exact .opened nofun
    | paren =>
      simp only [unescaped] at step
      split_ifs at step with closes opens <;> obtain rfl := Option.some.inj step
      · exact .bracket (by simp [closes]) nofun
      · exact .bracket (by simp [opens]) nofun
      · exact .opened nofun
    | brace =>
      simp only [unescaped] at step
      split_ifs at step with closes <;> obtain rfl := Option.some.inj step
      · exact .bracket (by simp [closes]) nofun
      · exact .opened nofun
    | backquote =>
      simp only [unescaped] at step
      split_ifs at step with closes escapes <;> obtain rfl := Option.some.inj step
      · exact .bracket (by simp [closes]) nofun
      · exact .escape escapes nofun
      · exact .kept rfl nofun

/-- The inversion of `advance`. -/
theorem advance_cases {r next : Reader} {c : Char} {pieces : List Piece}
    (step : r.advance c = some (pieces, next)) : Advance r c pieces next := by
  cases previous : r.previous with
  | plain => exact unescaped_cases (by simpa only [Reader.advance, previous] using step)
  | backslash =>
    simp only [Reader.advance, previous] at step
    obtain ⟨rfl, rfl⟩ := Prod.mk.inj (Option.some.inj step)
    exact .escaped previous
  | dollar =>
    simp only [Reader.advance, previous] at step
    split_ifs at step with paren brace
    · obtain ⟨rfl, rfl⟩ := Prod.mk.inj (Option.some.inj step)
      exact .bracket (by simp [paren]) (fun _ => previous)
    · obtain ⟨rfl, rfl⟩ := Prod.mk.inj (Option.some.inj step)
      exact .bracket (by simp [brace]) (fun _ => previous)
    · exact unescaped_cases step

/-- The characters that are left of a word. -/
def chars (pieces : List Piece) : List Char := pieces.map Piece.char

@[simp] theorem chars_append (pieces more : List Piece) :
    chars (pieces ++ more) = chars pieces ++ chars more := List.map_append

@[simp] theorem chars_bare (text : List Char) : chars (text.map .bare) = text := by
  rw [chars, List.map_map]
  exact List.map_id text

@[simp] theorem chars_quoted (text : List Char) : chars (text.map .quoted) = text := by
  rw [chars, List.map_map]
  exact List.map_id text

section Plain

theorem unescaped_of_plain {c : Char} (plain : isPlain c) : unescaped [] c = some ([.bare c], {}) := by
  simp only [isPlain, isQuote, startsExpansion, Bool.and_eq_true, Bool.not_eq_true',
    decide_eq_false_iff_not, List.mem_cons, List.not_mem_nil, or_false, not_or] at plain
  simp [unescaped, opened, charPiece, plain]

theorem feed_of_plain {text : List Char} (plain : ∀ c ∈ text, isPlain c) :
    Reader.feed {} text = some (text.map .bare, {}) := by
  induction text with
  | nil => rfl
  | cons c text ih =>
    have first : Reader.advance {} c = _ := unescaped_of_plain (plain c (List.mem_cons_self ..))
    rw [Reader.feed, first]
    simp only [ih fun d member => plain d (List.mem_cons_of_mem _ member)]
    rfl

/-- Between single quotes every other character is kept. -/
theorem feed_of_single {text : List Char} (closed : '\'' ∉ text) :
    Reader.feed { stack := [.single] } text = some (text.map .quoted, { stack := [.single] }) := by
  induction text with
  | nil => rfl
  | cons c text ih =>
    rw [List.mem_cons, not_or] at closed
    have first : Reader.advance { stack := [.single] } c =
        some ([.quoted c], { stack := [.single] }) := by
      simp [Reader.advance, unescaped, Ne.symm closed.1]
    rw [Reader.feed, first]
    simp only [ih closed.2]
    rfl

theorem feed_append (r : Reader) (text more : List Char) :
    r.feed (text ++ more) = (r.feed text).bind fun fed =>
      (fed.2.feed more).map fun last => (fed.1 ++ last.1, last.2) := by
  induction text generalizing r with
  | nil => simp [Reader.feed]
  | cons c text ih =>
    rw [List.cons_append, Reader.feed, Reader.feed]
    cases r.advance c with
    | none => rfl
    | some next =>
      simp only [ih]
      cases next.2.feed text with
      | none => rfl
      | some fed => simp [Option.map_map, Function.comp_def]

/-- Reading in two parts. -/
theorem feed_append_eq_some {r : Reader} {text more : List Char} {fed : List Piece × Reader}
    (read : r.feed (text ++ more) = some fed) :
    ∃ first last, r.feed text = some first ∧ first.2.feed more = some last ∧
      fed = (first.1 ++ last.1, last.2) := by
  rw [feed_append] at read
  obtain ⟨first, start, rest⟩ := Option.bind_eq_some_iff.mp read
  obtain ⟨last, next, rfl⟩ := Option.map_eq_some_iff.mp rest
  exact ⟨first, last, start, next, rfl⟩

/-- A single-quoted text, and the word after its closing quote. -/
theorem feed_of_single_close {text more : List Char} (closed : '\'' ∉ text) :
    Reader.feed { stack := [.single] } (text ++ '\'' :: more) =
      (Reader.feed {} more).map fun last => (text.map .quoted ++ last.1, last.2) := by
  have closes : Reader.advance { stack := [.single] } '\'' = some ([], {}) := rfl
  rw [feed_append, feed_of_single closed]
  simp only [Option.bind_some, Reader.feed, closes, Option.map_map, Function.comp_def,
    List.nil_append]

end Plain

section Weight

/-- The sum of a weight over a text. -/
def weight (f : Char → ℕ) (text : List Char) : ℕ := (text.map f).sum

variable (f : Char → ℕ)

/-- Between double quotes a backslash has been read but is not left out yet. -/
def Reader.pending (r : Reader) : ℕ :=
  match r.stack, r.previous with
  | .double :: _, .backslash => f '\\'
  | _, _ => 0

@[simp] theorem pending_plain (stack : List Context) :
    Reader.pending f { stack := stack } = 0 := by
  rcases stack with _ | ⟨_ | _ | _ | _ | _, _⟩ <;> rfl

theorem weight_escaped_le (stack : List Context) (c : Char) :
    weight f (chars (escaped stack c)) ≤ f c + Reader.pending f { stack := stack, previous := .backslash } := by
  match stack with
  | [] => by_cases h : c = '\n' <;> simp [escaped, h, weight, chars]
  | .double :: _ =>
    simp only [escaped, Reader.pending]
    split_ifs <;> simp [weight, chars, Nat.add_comm]
  | .single :: _ => simp [escaped, weight, chars]
  | .paren :: _ => simp [escaped, weight, chars]
  | .brace :: _ => simp [escaped, weight, chars]
  | .backquote :: _ => simp [escaped, weight, chars]

theorem weight_opened_le (stack : List Context) (c : Char) :
    weight f (chars (opened stack c).1) + (opened stack c).2.pending f ≤ f c := by
  unfold opened
  split_ifs with h
  · subst h
    rcases stack with _ | ⟨_ | _ | _ | _ | _, _⟩ <;> simp [weight, chars, Reader.pending]
  all_goals
    rcases stack with _ | ⟨_ | _ | _ | _ | _, _⟩ <;> simp [weight, chars, Reader.pending]

/-- Reading never adds anything to a word. -/
theorem weight_advance_le {r next : Reader} {c : Char} {pieces : List Piece}
    (step : r.advance c = some (pieces, next)) :
    weight f (chars pieces) + next.pending f ≤ f c + r.pending f := by
  cases advance_cases step with
  | escaped after =>
    have bound := weight_escaped_le f r.stack c
    rw [← after] at bound
    rwa [pending_plain, Nat.add_zero]
  | opened => exact Nat.le_trans (weight_opened_le f r.stack c) (Nat.le_add_right _ _)
  | kept same => simp [weight, chars, same]
  | closeQuote => simp [weight, chars]
  | bracket => simp [weight, chars]
  | escape backslash =>
    subst backslash
    simp only [weight, chars, List.map_nil, List.sum_nil, Reader.pending]
    split <;> omega

theorem weight_feed_le {r : Reader} {text : List Char} {fed : List Piece × Reader}
    (read : r.feed text = some fed) :
    weight f (chars fed.1) + fed.2.pending f ≤ weight f text + r.pending f := by
  induction text generalizing r fed with
  | nil =>
    obtain rfl := Option.some.inj read
    exact Nat.le_refl _
  | cons c text ih =>
    rw [Reader.feed] at read
    split at read
    · contradiction
    · rename_i pieces next step
      obtain ⟨last, more, rfl⟩ := Option.map_eq_some_iff.mp read
      have first := weight_advance_le f step
      have rest := ih more
      simp only [weight, chars_append, List.map_append, List.sum_append, List.map_cons,
        List.sum_cons] at first rest ⊢
      omega

/-- A quote at the start of a word is lost. -/
theorem weight_feed_quote {c : Char} (quote : isQuote c) {text : List Char}
    {fed : List Piece × Reader} (read : Reader.feed {} (c :: text) = some fed) :
    weight f (chars fed.1) ≤ weight f text := by
  have vanishes : ∃ next, Reader.advance {} c = some ([], next) ∧ next.pending f = 0 := by
    simp only [isQuote, List.mem_cons, List.not_mem_nil, or_false, decide_eq_true_eq] at quote
    rcases quote with rfl | rfl | rfl
    · exact ⟨_, rfl, rfl⟩
    · exact ⟨_, rfl, rfl⟩
    · exact ⟨_, rfl, rfl⟩
  obtain ⟨next, step, settled⟩ := vanishes
  rw [Reader.feed, step] at read
  obtain ⟨last, more, rfl⟩ := Option.map_eq_some_iff.mp read
  have rest := weight_feed_le f more
  rw [settled] at rest
  simp only [List.nil_append]
  omega

end Weight

section Exact

/-- A word none of whose characters is part of an expansion. -/
def Literal (pieces : List Piece) : Prop := ∀ piece ∈ pieces, piece.expands = false

theorem feed_cons {r : Reader} {c : Char} {text : List Char} {fed : List Piece × Reader}
    (read : r.feed (c :: text) = some fed) :
    ∃ pieces next last, r.advance c = some (pieces, next) ∧ next.feed text = some last ∧
      fed = (pieces ++ last.1, last.2) := by
  rw [Reader.feed] at read
  split at read
  · contradiction
  · rename_i pieces next step
    obtain ⟨last, more, rfl⟩ := Option.map_eq_some_iff.mp read
    exact ⟨pieces, next, last, step, more, rfl⟩

/-- How a literal word starts: with a plain character or a quote. -/
theorem plain_or_quote_of_literal {c : Char} {text : List Char} {fed : List Piece × Reader}
    (read : Reader.feed {} (c :: text) = some fed) (literal : Literal fed.1) :
    isPlain c ∨ isQuote c := by
  obtain ⟨pieces, next, last, step, -, rfl⟩ := feed_cons read
  by_cases plain : isPlain c
  · exact .inl plain
  by_cases quote : isQuote c
  · exact .inr quote
  exfalso
  by_cases expansion : startsExpansion c
  · simp only [startsExpansion, List.mem_cons, List.not_mem_nil, or_false, decide_eq_true_eq] at expansion
    have head : Piece.expansion c ∈ pieces := by
      rcases expansion with rfl | rfl
      · obtain ⟨rfl, -⟩ := Prod.mk.inj (Option.some.inj step)
        simp
      · obtain ⟨rfl, -⟩ := Prod.mk.inj (Option.some.inj step)
        simp
    exact absurd (literal _ (List.mem_append_left _ head)) (by simp [Piece.expands])
  · have ends : endsWord c := by simpa [isPlain, quote, expansion] using plain
    simp [Reader.advance, unescaped, ends] at step

/-- A literal word that is as long as its text is that text, without quotes. -/
theorem plain_of_feed_length {text : List Char} {fed : List Piece × Reader}
    (read : Reader.feed {} text = some fed) (literal : Literal fed.1)
    (whole : text.length ≤ fed.1.length) : ∀ c ∈ text, isPlain c := by
  induction text generalizing fed with
  | nil => nofun
  | cons c text ih =>
    rcases plain_or_quote_of_literal read literal with plain | quote
    · obtain ⟨pieces, next, last, step, more, rfl⟩ := feed_cons read
      obtain ⟨rfl, rfl⟩ := Prod.mk.inj (Option.some.inj (step.symm.trans (unescaped_of_plain plain)))
      have rest := ih more (fun piece member => literal piece (List.mem_append_right _ member))
        (by simpa using whole)
      intro d member
      rcases List.mem_cons.mp member with rfl | member
      · exact plain
      · exact rest d member
    · have short := weight_feed_quote (fun _ => 1) quote read
      simp only [weight, chars, List.map_map, Function.comp_def, List.map_const',
        List.sum_replicate_nat, List.length_cons] at short whole
      omega

/-- A literal word with a quote in its text is less than that text. -/
theorem weight_feed_lt (f : Char → ℕ) (positive : ∀ c, isQuote c → 0 < f c) {text : List Char}
    {fed : List Piece × Reader} (read : Reader.feed {} text = some fed) (literal : Literal fed.1)
    (quoting : ∃ c ∈ text, isQuote c) : weight f (chars fed.1) < weight f text := by
  induction text generalizing fed with
  | nil => simp at quoting
  | cons c text ih =>
    rcases plain_or_quote_of_literal read literal with plain | quote
    · obtain ⟨pieces, next, last, step, more, rfl⟩ := feed_cons read
      obtain ⟨rfl, rfl⟩ := Prod.mk.inj (Option.some.inj (step.symm.trans (unescaped_of_plain plain)))
      have later : ∃ d ∈ text, isQuote d := by
        obtain ⟨d, member, quote⟩ := quoting
        rcases List.mem_cons.mp member with rfl | member
        · simp [isPlain, quote] at plain
        · exact ⟨d, member, quote⟩
      have rest := ih more (fun piece member => literal piece (List.mem_append_right _ member)) later
      simpa [weight, chars] using rest
    · have bound := weight_feed_quote f quote read
      have paid := positive c quote
      simp only [weight, List.map_cons, List.sum_cons] at bound ⊢
      omega

end Exact

section Steps

variable {r next : Reader} {c : Char} {pieces : List Piece}

/-- A character that is no quote and no line end stays in every word that reads it. -/
theorem mem_chars_of_advance (step : r.advance c = some (pieces, next)) (unquoting : isQuote c = false)
    (inLine : c ≠ '\n') : c ∈ chars pieces := by
  cases advance_cases step with
  | escaped =>
    simp only [Shell.escaped, inLine, if_false]
    split
    · simp [chars]
    · split_ifs <;> simp [chars]
    · simp [chars]
  | opened =>
    simp only [isQuote, List.mem_cons, List.not_mem_nil, or_false, decide_eq_false_iff_not,
      not_or] at unquoting
    simp only [opened, unquoting, if_false]
    split_ifs <;> simp [chars]
  | kept same => simp [chars, same]
  | closeQuote quote => simp [unquoting] at quote
  | bracket => simp [chars]
  | escape backslash => simp [backslash, isQuote] at unquoting

theorem count_le_of_feed {text : List Char} {fed : List Piece × Reader} (read : r.feed text = some fed)
    (unquoting : isQuote c = false) (inLine : c ≠ '\n') :
    text.count c ≤ (chars fed.1).count c := by
  induction text generalizing r fed with
  | nil => simp
  | cons d text ih =>
    obtain ⟨pieces, next, last, step, more, rfl⟩ := feed_cons read
    have rest := ih more
    rw [chars_append, List.count_append, List.count_cons]
    by_cases same : d = c
    · subst same
      have kept := List.count_pos_iff.mpr (mem_chars_of_advance step unquoting inLine)
      simp only [beq_self_eq_true, if_true]
      omega
    · simp only [beq_iff_eq, same, if_false]
      omega

/-- A character that opens and closes nothing. -/
def isNeutral (c : Char) : Bool :=
  !isQuote c && !startsExpansion c && decide (c ∉ ['(', ')', '{', '}'])

theorem stack_of_advance (step : r.advance c = some (pieces, next)) (neutral : isNeutral c) :
    next.stack = r.stack := by
  simp only [isNeutral, Bool.and_eq_true, Bool.not_eq_true', decide_eq_true_eq] at neutral
  obtain ⟨⟨unquoting, plain⟩, open_close⟩ := neutral
  cases advance_cases step with
  | escaped => rfl
  | opened =>
    simp only [isQuote, startsExpansion, List.mem_cons, List.not_mem_nil, or_false,
      decide_eq_false_iff_not, not_or] at unquoting plain
    simp [opened, unquoting, plain]
  | kept => rfl
  | closeQuote quote => simp [unquoting] at quote
  | bracket bracket =>
    simp only [startsExpansion, List.mem_cons, List.not_mem_nil, or_false, not_or,
      decide_eq_false_iff_not] at plain open_close bracket
    tauto
  | escape => rfl

theorem stack_of_feed {text : List Char} {fed : List Piece × Reader} (read : r.feed text = some fed)
    (neutral : ∀ c ∈ text, isNeutral c) : fed.2.stack = r.stack := by
  induction text generalizing r fed with
  | nil =>
    obtain rfl := Option.some.inj read
    rfl
  | cons c text ih =>
    obtain ⟨pieces, next, last, step, more, rfl⟩ := feed_cons read
    rw [ih more fun d member => neutral d (List.mem_cons_of_mem _ member)]
    exact stack_of_advance step (neutral c (List.mem_cons_self ..))

/-- Only a backslash and a dollar sign say something about the next character. -/
theorem previous_of_advance (step : r.advance c = some (pieces, next)) (unescaping : c ≠ '\\')
    (undollar : c ≠ '$') : next.previous = .plain := by
  cases advance_cases step with
  | opened =>
    simp only [opened, unescaping, undollar, if_false]
    split_ifs <;> rfl
  | escape backslash => exact absurd backslash unescaping
  | escaped | kept | closeQuote | bracket => rfl

/-- Outside of quotes a word goes on past such a character only after a backslash, or with the
bracket of an expansion. -/
theorem after_of_endsWord (step : r.advance c = some (pieces, next)) (outside : r.stack = [])
    (ends : endsWord c) : r.previous = .backslash ∨ r.previous = .dollar := by
  cases advance_cases step with
  | escaped after => exact .inl after
  | opened inside => simp [inside outside] at ends
  | kept _ inside => exact absurd outside inside
  | closeQuote _ inside => exact absurd outside inside
  | bracket _ inside => exact .inr (inside outside)
  | escape _ inside => exact absurd outside inside

/-- A word ends only outside of quotes, and before a character that is never part of one. -/
theorem advance_eq_none (ended : r.advance c = none) : r.stack = [] ∧ endsWord c := by
  have through : ∀ {stack}, unescaped stack c = none → stack = [] ∧ endsWord c := by
    intro stack ended
    rcases stack with _ | ⟨_ | _ | _ | _ | _, outer⟩ <;> simp only [unescaped] at ended <;>
      split_ifs at ended
    exact ⟨rfl, by assumption⟩
  cases previous : r.previous with
  | plain => exact through (by simpa only [Reader.advance, previous] using ended)
  | backslash => simp [Reader.advance, previous] at ended
  | dollar =>
    simp only [Reader.advance, previous] at ended
    split_ifs at ended
    exact through ended

end Steps

end OmniaJit.Posix.Shell
