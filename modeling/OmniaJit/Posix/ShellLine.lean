import OmniaJit.Posix.Shell

/-! # Lines of a shell script

The shell splits a script into words and operators and reads it one logical line at a time. A line
ends at the first line end outside of quotes, so what a text adds to a script can be told from the
line it becomes and from where the next line starts.
-/

namespace OmniaJit.Posix.Shell

inductive Token where
  | word (pieces : List Piece)
  /-- The number before a redirection operator. -/
  | ioNumber (pieces : List Piece)
  | operator (text : List Char)
deriving DecidableEq, Repr

def operators : List (List Char) :=
  ["|", "||", "&", "&&", ";", ";;", "<", "<<", "<<-", "<&", "<>", ">", ">>", ">&", ">|", "(", ")"].map
    String.toList

/-- What is being read. -/
inductive Scan where
  | between
  | word (r : Reader) (pieces : List Piece)
  | operator (text : List Char)
  | comment

/-- The token of a word that ends before `c`. -/
def delimit (pieces : List Piece) (c : Char) : Token :=
  if (c = '<' ∨ c = '>') ∧ pieces ≠ [] ∧ ∀ piece ∈ pieces, ∃ d ∈ "0123456789".toList, piece = .bare d then
    .ioNumber pieces
  else .word pieces

/-- What starts with `c`; a line end starts nothing. -/
def enter (c : Char) : Option Scan :=
  if c = '\n' then none
  else if isBlank c then some .between
  else if c = '#' then some .comment
  else match Reader.advance {} c with
    | some (pieces, r) => some (.word r pieces)
    | none => some (.operator [c])

/-- Read one character: the tokens it completes, and what is being read after it unless it ends
the line. -/
def Scan.step (state : Scan) (c : Char) : List Token × Option Scan :=
  match state with
  | .between => ([], enter c)
  | .comment => ([], if c = '\n' then none else some .comment)
  | .operator text =>
      if text ++ [c] ∈ operators then ([], some (.operator (text ++ [c])))
      else ([.operator text], enter c)
  | .word r pieces =>
      match r.advance c with
      | some (more, r) => ([], some (.word r (pieces ++ more)))
      | none => ([delimit pieces c], enter c)

/-- The tokens completed by the end of the script, unless a quote is still open. -/
def Scan.finish : Scan → Option (List Token)
  | .between | .comment => some []
  | .operator text => some [.operator text]
  | .word r pieces => if r.stack = [] ∧ r.previous ≠ .backslash then some [.word pieces] else none

/-- The tokens of the current line and the text after it. -/
def scan (state : Scan) (tokens : List Token) : List Char → Option (List Token × List Char)
  | [] => state.finish.map fun last => (tokens ++ last, [])
  | c :: text =>
    match state.step c with
    | (new, some next) => scan next (tokens ++ new) text
    | (new, none) => some (tokens ++ new, text)

def readLine (text : List Char) : Option (List Token × List Char) := scan .between [] text

def readLines : ℕ → List Char → Option (List (List Token) × List Char)
  | 0, text => some ([], text)
  | n + 1, text => do
    let (line, text) ← readLine text
    let (lines, text) ← readLines n text
    pure (line :: lines, text)

theorem readLines_cons_iff {n : ℕ} {text rest : List Char} {lines : List (List Token)} :
    readLines (n + 1) text = some (lines, rest) ↔ ∃ line more later, readLine text = some (line, later) ∧
      readLines n later = some (more, rest) ∧ lines = line :: more := by
  simp only [readLines, Option.bind_eq_bind, Option.bind_eq_some_iff, Option.pure_def]
  constructor
  · rintro ⟨⟨line, later⟩, first, ⟨more, rest'⟩, others, same⟩
    obtain ⟨rfl, rfl⟩ := Prod.mk.inj (Option.some.inj same)
    exact ⟨line, more, later, first, others, rfl⟩
  · rintro ⟨line, more, later, first, others, rfl⟩
    exact ⟨(line, later), first, (more, rest), others, rfl⟩

section Forward

variable {r : Reader} {pieces : List Piece} {tokens : List Token} {rest : List Char}

theorem scan_feed {text : List Char} {fed : List Piece × Reader} (read : r.feed text = some fed) :
    scan (.word r pieces) tokens (text ++ rest) = scan (.word fed.2 (pieces ++ fed.1)) tokens rest := by
  induction text generalizing r pieces fed with
  | nil =>
    obtain rfl := Option.some.inj read
    simp
  | cons c text ih =>
    obtain ⟨first, next, last, step, more, rfl⟩ := feed_cons read
    rw [List.cons_append, scan]
    simp only [Scan.step, step, List.append_nil]
    rw [ih more, List.append_assoc]

/-- A word is read from its first character on. -/
theorem scan_enter {text : List Char} {fed : List Piece × Reader}
    (read : Reader.feed {} text = some fed) (nonempty : text ≠ []) (uncommented : text.head? ≠ some '#') :
    scan .between tokens (text ++ rest) = scan (.word fed.2 fed.1) tokens rest := by
  obtain ⟨c, text, rfl⟩ := List.exists_cons_of_ne_nil nonempty
  obtain ⟨first, next, last, step, more, rfl⟩ := feed_cons read
  have inWord : endsWord c = false := by
    simp only [Reader.advance, unescaped] at step
    split_ifs at step with ends
    simpa using ends
  have entered : enter c = some (.word next first) := by
    simp only [endsWord, Bool.or_eq_false_iff, decide_eq_false_iff_not] at inWord
    simp only [List.head?_cons, ne_eq, Option.some.injEq] at uncommented
    simp [enter, inWord, uncommented, step]
  rw [List.cons_append, scan]
  simp only [Scan.step, entered, List.append_nil]
  exact scan_feed more

theorem scan_word_blank : scan (.word {} pieces) tokens (' ' :: rest) =
    scan .between (tokens ++ [.word pieces]) rest := by
  simp [scan, Scan.step, Reader.advance, unescaped, endsWord, isBlank, enter, delimit]

theorem scan_word_newline : scan (.word {} pieces) tokens ('\n' :: rest) =
    some (tokens ++ [.word pieces], rest) := by
  simp [scan, Scan.step, Reader.advance, unescaped, endsWord, enter, delimit]

theorem scan_plain {text : List Char} (plain : ∀ c ∈ text, isPlain c) (nonempty : text ≠ [])
    (uncommented : text.head? ≠ some '#') :
    scan .between tokens (text ++ rest) = scan (.word {} (text.map .bare)) tokens rest :=
  scan_enter (feed_of_plain plain) nonempty uncommented

/-- A plainly written command is its first word, whatever its arguments are. -/
theorem readLine_verb {verb : List Char} (plain : ∀ c ∈ verb, isPlain c) (nonempty : verb ≠ [])
    (uncommented : verb.head? ≠ some '#') :
    readLine (verb ++ ' ' :: rest) = scan .between [.word (verb.map .bare)] rest := by
  rw [readLine, scan_plain plain nonempty uncommented, scan_word_blank]
  rfl

/-- A plainly written last word. -/
theorem scan_last {text : List Char} (plain : ∀ c ∈ text, isPlain c) (nonempty : text ≠ [])
    (uncommented : text.head? ≠ some '#') :
    scan .between tokens (text ++ '\n' :: rest) =
      some (tokens ++ [.word (text.map .bare)], rest) := by
  rw [scan_plain plain nonempty uncommented, scan_word_newline]

/-- A single-quoted word before a `|` at the end of the line. -/
theorem scan_quoted_pipe {text : List Char} (closed : '\'' ∉ text) :
    scan .between tokens ('\'' :: (text ++ ['\'']) ++ (" |\n".toList ++ rest)) =
      some (tokens ++ [.word (text.map .quoted), .operator ['|']], rest) := by
  have read : Reader.feed {} ('\'' :: (text ++ ['\''])) = some (text.map .quoted, {}) := by
    have opens : Reader.advance {} '\'' = some ([], { stack := [.single] }) := rfl
    rw [Reader.feed, opens]
    simp only [feed_of_single_close closed, Reader.feed, Option.map_some, List.append_nil,
      List.nil_append]
  have pipe : ['|', '\n'] ∉ operators := by decide
  rw [scan_enter read (List.cons_ne_nil _ _) (by simp)]
  have blank : " |\n".toList ++ rest = ' ' :: '|' :: '\n' :: rest := rfl
  rw [blank, scan_word_blank]
  simp [scan, Scan.step, enter, isBlank, Reader.advance, unescaped, endsWord, isOperatorChar, pipe]

end Forward

section Backward

variable {r : Reader} {pieces : List Piece} {tokens line : List Token} {text rest : List Char}

/-- Tokens once read stay. -/
theorem prefix_of_scan {state : Scan} (read : scan state tokens text = some (line, rest)) :
    tokens <+: line := by
  induction text generalizing state tokens with
  | nil =>
    obtain ⟨last, -, same⟩ := Option.map_eq_some_iff.mp read
    obtain ⟨rfl, -⟩ := Prod.mk.inj same
    exact List.prefix_append _ _
  | cons c text ih =>
    rw [scan] at read
    split at read
    · exact (List.prefix_append _ _).trans (ih read)
    · obtain ⟨rfl, -⟩ := Prod.mk.inj (Option.some.inj read)
      exact List.prefix_append _ _

theorem scan_comment (read : scan .comment tokens text = some (line, rest)) : line = tokens := by
  induction text with
  | nil =>
    obtain ⟨rfl, -⟩ := Prod.mk.inj (Option.some.inj read)
    exact List.append_nil _
  | cons c text ih =>
    rw [scan] at read
    by_cases ends : c = '\n'
    · simp only [Scan.step, ends, if_true] at read
      obtain ⟨rfl, -⟩ := Prod.mk.inj (Option.some.inj read)
      exact List.append_nil _
    · simp only [Scan.step, ends, if_false, List.append_nil] at read
      exact ih read

theorem scan_operator {op : List Char} (read : scan (.operator op) tokens text = some (line, rest)) :
    ∃ op, tokens ++ [.operator op] <+: line := by
  induction text generalizing op with
  | nil =>
    obtain ⟨rfl, -⟩ := Prod.mk.inj (Option.some.inj read)
    exact ⟨op, List.prefix_refl _⟩
  | cons c text ih =>
    rw [scan] at read
    by_cases longer : op ++ [c] ∈ operators
    · simp only [Scan.step, longer, if_true, List.append_nil] at read
      exact ih read
    · simp only [Scan.step, longer, if_false] at read
      split at read
      · rename_i new next same
        obtain ⟨rfl, -⟩ := Prod.mk.inj same
        exact ⟨op, prefix_of_scan read⟩
      · rename_i new same
        obtain ⟨rfl, -⟩ := Prod.mk.inj same
        obtain ⟨rfl, -⟩ := Prod.mk.inj (Option.some.inj read)
        exact ⟨op, List.prefix_refl _⟩

/-- The text of a word that has been read, and the text at which it ended. -/
structure Reads (r : Reader) (text : List Char) (fed : List Piece × Reader) (left : List Char) : Prop where
  feed : r.feed text = some fed
  closed : fed.2.stack = []
  ends : ∀ c ∈ left.head?, fed.2.advance c = none

/-- Words appended to a list are told by the list. -/
theorem token_of_prefix {token token' : Token} {more : List Token}
    (start : tokens ++ [token] <+: tokens ++ token' :: more) : token = token' := by
  rw [List.prefix_append_right_inj, List.cons_prefix_cons] at start
  exact start.1

theorem scan_word {more : List Token} {found : List Piece}
    (read : scan (.word r pieces) tokens text = some (tokens ++ .word found :: more, rest)) :
    ∃ consumed left fed, text = consumed ++ left ∧ Reads r consumed fed left ∧
      found = pieces ++ fed.1 := by
  induction text generalizing r pieces with
  | nil =>
    obtain ⟨last, finished, same⟩ := Option.map_eq_some_iff.mp read
    simp only [Scan.finish] at finished
    split_ifs at finished with closed
    obtain rfl := Option.some.inj finished
    obtain ⟨same, -⟩ := Prod.mk.inj same
    obtain ⟨same, -⟩ := List.cons.inj (List.append_cancel_left same)
    obtain rfl := Token.word.inj same
    exact ⟨[], [], ([], r), rfl, ⟨rfl, closed.1, nofun⟩, (List.append_nil _).symm⟩
  | cons c text ih =>
    rw [scan] at read
    cases step : r.advance c with
    | some next =>
      obtain ⟨first, next⟩ := next
      simp only [Scan.step, step, List.append_nil] at read
      obtain ⟨consumed, left, fed, rfl, reads, rfl⟩ := ih read
      refine ⟨c :: consumed, left, (first ++ fed.1, fed.2), rfl, ⟨?_, reads.closed, reads.ends⟩, ?_⟩
      · rw [Reader.feed, step]
        simp only [reads.feed, Option.map_some]
      · exact List.append_assoc _ _ _
    | none =>
      have start : tokens ++ [delimit pieces c] <+: tokens ++ .word found :: more := by
        simp only [Scan.step, step] at read
        split at read
        · rename_i new next same
          obtain ⟨rfl, -⟩ := Prod.mk.inj same
          exact prefix_of_scan read
        · rename_i new same
          obtain ⟨rfl, -⟩ := Prod.mk.inj same
          obtain ⟨same, -⟩ := Prod.mk.inj (Option.some.inj read)
          exact same ▸ List.prefix_refl _
      have same := token_of_prefix start
      simp only [delimit] at same
      split_ifs at same
      obtain rfl := Token.word.inj same
      refine ⟨[], c :: text, ([], r), rfl, ⟨rfl, (advance_eq_none step).1, ?_⟩,
        (List.append_nil _).symm⟩
      intro d head
      obtain rfl := Option.some.inj head
      exact step

/-- What comes before a word is blank, and the word starts with its first character. -/
theorem scan_between {more : List Token} {found : List Piece}
    (read : scan .between tokens text = some (tokens ++ .word found :: more, rest)) :
    ∃ blanks consumed left fed, text = blanks ++ (consumed ++ left) ∧ (∀ c ∈ blanks, isBlank c) ∧
      consumed ≠ [] ∧ consumed.head? ≠ some '#' ∧ Reads {} consumed fed left ∧ found = fed.1 := by
  induction text with
  | nil =>
    obtain ⟨same, -⟩ := Prod.mk.inj (Option.some.inj read)
    simp at same
  | cons c text ih =>
    rw [scan] at read
    simp only [Scan.step, enter] at read
    split_ifs at read with ends blank comment
    · obtain ⟨same, -⟩ := Prod.mk.inj (Option.some.inj read)
      simp at same
    · obtain ⟨blanks, consumed, left, fed, rfl, allBlank, rest⟩ := ih (by simpa using read)
      refine ⟨c :: blanks, consumed, left, fed, rfl, ?_, rest⟩
      intro d member
      rcases List.mem_cons.mp member with rfl | member
      · exact blank
      · exact allBlank d member
    · have same := scan_comment read
      simp at same
    · cases step : Reader.advance {} c with
      | none =>
        simp only [step, List.append_nil] at read
        obtain ⟨op, start⟩ := scan_operator read
        have same := token_of_prefix start
        contradiction
      | some next =>
        obtain ⟨first, next⟩ := next
        simp only [step, List.append_nil] at read
        obtain ⟨consumed, left, fed, rfl, reads, rfl⟩ := scan_word read
        refine ⟨[], c :: consumed, left, (first ++ fed.1, fed.2), rfl, nofun, List.cons_ne_nil _ _,
          by simpa using comment, ⟨?_, reads.closed, reads.ends⟩, rfl⟩
        rw [Reader.feed, step]
        simp only [reads.feed, Option.map_some]

/-- A literal word that stays within a text and has all of it as its value is that text, plainly
written. -/
theorem plain_of_reads {blanks consumed remaining left : List Char} {fed : List Piece × Reader}
    (reads : Reads {} consumed fed left) (literal : Literal fed.1)
    (value : chars fed.1 = blanks ++ consumed ++ remaining) :
    blanks = [] ∧ remaining = [] ∧ ∀ c ∈ consumed, isPlain c := by
  have bound := weight_feed_le (fun _ => 1) reads.feed
  have lengths := congrArg List.length value
  simp only [weight, chars, List.map_map, Function.comp_def, List.map_const', List.sum_replicate_nat,
    List.length_map, List.length_append, Reader.pending] at bound lengths
  refine ⟨?_, ?_, plain_of_feed_length reads.feed literal (by omega)⟩
  · exact List.length_eq_zero_iff.mp (by omega)
  · exact List.length_eq_zero_iff.mp (by omega)

/-- A word whose value is all of the line it stands on is written without quotes. -/
theorem plain_of_scan {u t : List Char} {c : Char} {more : List Token} {found : List Piece}
    (read : scan .between tokens (u ++ '\n' :: c :: t) = some (tokens ++ .word found :: more, rest))
    (inWord : endsWord c = false) (unquoting : isQuote c = false) (literal : Literal found)
    (value : chars found = u) : u ≠ [] ∧ (∀ d ∈ u, isPlain d) ∧ u.head? ≠ some '#' := by
  obtain ⟨blanks, consumed, left, fed, split, allBlank, nonempty, uncommented, reads, rfl⟩ :=
    scan_between read
  have within {remaining : List Char} (short : u = blanks ++ consumed ++ remaining) :
      u ≠ [] ∧ (∀ d ∈ u, isPlain d) ∧ u.head? ≠ some '#' := by
    obtain ⟨rfl, rfl, plain⟩ := plain_of_reads reads literal (value.trans short)
    rw [List.append_nil, List.nil_append] at short
    subst short
    exact ⟨nonempty, plain, uncommented⟩
  rw [← List.append_assoc] at split
  rcases List.append_eq_append_iff.mp split with ⟨after, past, tail⟩ | ⟨remaining, short, -⟩
  · match after with
    | [] => exact @within [] (by rw [past, List.append_nil, List.append_nil])
    | [newline] =>
      -- the line end is inside the word, and so is what follows it
      obtain ⟨-, rfl⟩ := List.cons.inj tail
      have ended := (advance_eq_none (reads.ends c rfl)).2
      simp [inWord] at ended
    | newline :: next :: after =>
      obtain ⟨-, tail⟩ := List.cons.inj tail
      obtain ⟨rfl, -⟩ := List.cons.inj tail
      have inLine : c ≠ '\n' := by
        rintro rfl
        simp [endsWord] at inWord
      have notBlank : c ∉ blanks := by
        intro member
        simp [endsWord, allBlank c member] at inWord
      have kept := count_le_of_feed reads.feed unquoting inLine
      have total := congrArg (List.count c) past
      rw [List.count_append, List.count_append, List.count_eq_zero.mpr notBlank, List.count_cons,
        List.count_cons_self] at total
      rw [value] at kept
      omega
  · exact within short

end Backward

end OmniaJit.Posix.Shell
