import OmniaJit.Lua.FileRead
import OmniaJit.Lua.StringFormat
import Mathlib.Data.List.Infix

/-! # Embedding Lua source in a C array

`out_lua_source` of `bin/luastatic.lua` writes a file as the elements of a C array. It looks for a
byte order mark and for a `#` anywhere in the first four bytes, and if it finds the latter drops
them together with the rest of the line that the file is then positioned in.
-/

namespace OmniaJit.Bin

open OmniaJit.Lua

/-- `"\xef\xbb\xbf"`. -/
def byteOrderMark : Bytes := [0xef, 0xbb, 0xbf]

/-- `#`. -/
def hash : UInt8 := 35

/-- `("0x%02x"):format(byte)`. -/
def hexByte (b : UInt8) : Text :=
  ['0', 'x', Nat.digitChar (b.toNat / 16), Nat.digitChar (b.toNat % 16)]

/-- `string_to_c_hex_literal`. -/
def stringToCHexLiteral (characters : Bytes) : Text :=
  [',', ' '].intercalate (characters.map hexByte)

/-- The loop of 4096-byte reads, each read written with its separator. -/
def outChunks : ℕ → Bytes → Text
  | 0, _ => []
  | fuel + 1, f =>
      match readLen 4096 f with
      | (some strdata, f) => stringToCHexLiteral strdata ++ [',', ' '] ++ outChunks fuel f
      | (none, _) => []

/-- The prefix without a byte order mark; the match is not anchored. -/
def stripMark (pre : Bytes) : Bytes := if byteOrderMark <:+: pre then pre.drop 3 else pre

/-- `out_lua_source`, for a file with content `c`. -/
def outLuaSource (io : Stdio) (c : Bytes) : Text :=
  match readLen 4 c with
  | (some pre, f) =>
      let pre := stripMark pre
      let (pre, f) := if hash ∈ pre then ([newline], (readLine io f).2) else (pre, f)
      stringToCHexLiteral pre ++ [',', ' '] ++ outChunks (f.length + 1) f
  | (none, f) => outChunks (f.length + 1) f

/-- The value of a hexadecimal digit. -/
def hexValue (c : Char) : Option ℕ := (List.range 16).find? fun n => Nat.digitChar n = c

/-- The elements of a C initializer list of hexadecimal literals, which may end with a comma. -/
def elements : Text → Option Bytes
  | [] => some []
  | '0' :: 'x' :: high :: low :: rest =>
      match hexValue high, hexValue low with
      | some high, some low =>
          match rest with
          | [] => some [(16 * high + low).toUInt8]
          | ',' :: rest => (elements rest).map ((16 * high + low).toUInt8 :: ·)
          | _ => none
      | _, _ => none
  | _ => none

/-- What the C compiler makes of the list; blanks between tokens mean nothing. -/
def decode (list : Text) : Option Bytes := elements (list.filter (· ≠ ' '))

/-- The text that should be embedded: no byte order mark at the start, and a first line that starts
with `#` replaced by an empty one. -/
def programText (c : Bytes) : Bytes :=
  let c := if byteOrderMark <+: c then c.drop 3 else c
  if c.head? = some hash then newline :: afterLine c else c

section RoundTrip

theorem hexValue_digitChar : ∀ n < 16, hexValue (Nat.digitChar n) = some n := by decide

theorem elements_hexByte (b : UInt8) (rest : Text) :
    elements (hexByte b ++ ',' :: rest) = (elements rest).map (b :: ·) := by
  have bound := b.toNat_lt
  have high := hexValue_digitChar (b.toNat / 16) (by omega)
  have low := hexValue_digitChar (b.toNat % 16) (by omega)
  have whole : (16 * (b.toNat / 16) + b.toNat % 16).toUInt8 = b := by
    rw [Nat.div_add_mod]
    exact UInt8.ofNat_toNat
  simp only [hexByte, List.cons_append, List.nil_append, elements, high, low, whole]

theorem hexByte_filter (b : UInt8) : (hexByte b).filter (· ≠ ' ') = hexByte b := by
  have digit : ∀ n < 16, Nat.digitChar n ≠ ' ' := by decide
  have bound := b.toNat_lt
  have high := digit (b.toNat / 16) (by omega)
  have low := digit (b.toNat % 16) (by omega)
  simp [hexByte, high, low]

/-- A nonempty literal and its separator are the elements, each with a separator. -/
theorem literal_separated {s : Bytes} (nonempty : s ≠ []) : stringToCHexLiteral s ++ [',', ' '] =
    s.flatMap fun b => hexByte b ++ [',', ' '] := by
  induction s with
  | nil => exact absurd rfl nonempty
  | cons b s ih =>
    cases s with
    | nil => simp [stringToCHexLiteral, List.intercalate]
    | cons b' s =>
      have split : stringToCHexLiteral (b :: b' :: s) =
          hexByte b ++ [',', ' '] ++ stringToCHexLiteral (b' :: s) := by
        simp [stringToCHexLiteral, List.intercalate]
      rw [split, List.append_assoc, ih (List.cons_ne_nil _ _)]
      rfl

theorem literal_filter {s : Bytes} (nonempty : s ≠ []) (rest : Text) :
    (stringToCHexLiteral s ++ [',', ' '] ++ rest).filter (· ≠ ' ') =
      s.flatMap (fun b => hexByte b ++ [',']) ++ rest.filter (· ≠ ' ') := by
  have element (b : UInt8) : (hexByte b ++ [',', ' ']).filter (· ≠ ' ') = hexByte b ++ [','] := by
    rw [List.filter_append, hexByte_filter]
    rfl
  rw [literal_separated nonempty, List.filter_append, List.filter_flatMap]
  simp only [element]

theorem elements_literal (s : Bytes) (rest : Text) :
    elements (s.flatMap (fun b => hexByte b ++ [',']) ++ rest) = (elements rest).map (s ++ ·) := by
  induction s with
  | nil => simp
  | cons b s ih =>
    rw [List.flatMap_cons, List.append_assoc, List.append_assoc, List.singleton_append,
      elements_hexByte, ih, Option.map_map]
    rfl

/-- What is written for a nonempty string decodes to that string. -/
theorem decode_literal {s : Bytes} (nonempty : s ≠ []) (rest : Text) :
    decode (stringToCHexLiteral s ++ [',', ' '] ++ rest) = (decode rest).map (s ++ ·) := by
  rw [decode, literal_filter nonempty, elements_literal, decode]

/-- The reads in blocks lose nothing. -/
theorem decode_outChunks (fuel : ℕ) {f : Bytes} (enough : f.length < fuel) :
    decode (outChunks fuel f) = some f := by
  induction fuel generalizing f with
  | zero => omega
  | succ fuel ih =>
    rcases eq_or_ne f [] with rfl | done
    · rfl
    · have block : f.take 4096 ≠ [] := by simpa using done
      have shorter : (f.drop 4096).length < fuel := by
        have := List.length_pos_iff.mpr done
        rw [List.length_drop]
        omega
      rw [outChunks, readLen, if_neg block]
      dsimp only
      rw [decode_literal block, ih shorter, Option.map_some, List.take_append_drop]

end RoundTrip

section Embedded

variable (io : Stdio)

/-- The bytes the array gets. -/
def embedded (c : Bytes) : Bytes :=
  if hash ∈ stripMark (c.take 4) then newline :: (readLine io (c.drop 4)).2
  else stripMark (c.take 4) ++ c.drop 4

theorem infix_take_four (c : Bytes) : byteOrderMark <:+: c.take 4 ↔
    byteOrderMark <+: c ∨ byteOrderMark <+: c.tail := by
  cases c with
  | nil => simp [byteOrderMark]
  | cons x c =>
    have shorter (s : Bytes) (short : s.length < 3) : ¬ byteOrderMark <:+: s := fun within => by
      have := within.length_le
      simp only [byteOrderMark, List.length_cons, List.length_nil] at this
      omega
    have last (n : ℕ) (s : Bytes) : byteOrderMark <+: s.take (n + 3) ↔ byteOrderMark <+: s := by
      rw [List.prefix_take_iff]
      exact and_iff_left (by simp [byteOrderMark])
    rw [List.tail_cons, ← last 1 (x :: c), ← last 0 c, List.take_succ_cons, List.infix_cons_iff]
    refine or_congr_right ⟨fun within => ?_, List.IsPrefix.isInfix⟩
    cases short : c.take 3 with
    | nil => exact absurd (short ▸ within) (shorter _ (by simp))
    | cons y s =>
      rw [short, List.infix_cons_iff] at within
      refine within.resolve_right (shorter _ ?_)
      have := congrArg List.length short
      simp only [List.length_take, List.length_cons] at this
      omega

/-- The prefix is emptied only if the mark is all there is. -/
theorem eq_mark_of_stripMark {c : Bytes} (nonempty : c ≠ []) (empty : stripMark (c.take 4) = []) :
    c = byteOrderMark := by
  rw [stripMark] at empty
  split_ifs at empty with mark
  · have bound := List.drop_eq_nil_iff.mp empty
    have same := mark.eq_of_length_le bound
    have length := congrArg List.length same
    simp only [byteOrderMark, List.length_take, List.length_cons, List.length_nil] at length
    rw [same, List.take_of_length_le (by omega)]
  · simp [nonempty] at empty

/-- A file that holds nothing but the mark leaves an empty element in the list. -/
theorem decode_outLuaSource (c : Bytes) : decode (outLuaSource io c) =
    if c = byteOrderMark then none else some (embedded io c) := by
  rcases eq_or_ne c byteOrderMark with rfl | bare
  · rfl
  · rw [if_neg bare, outLuaSource, readLen, embedded]
    rcases eq_or_ne c [] with rfl | nonempty
    · rfl
    · have first : c.take 4 ≠ [] := by simpa using nonempty
      rw [if_neg first]
      by_cases comment : hash ∈ stripMark (c.take 4)
      · simp only [if_pos comment]
        rw [decode_literal (List.cons_ne_nil _ _), decode_outChunks _ (Nat.lt_succ_self _)]
        rfl
      · simp only [if_neg comment]
        rw [decode_literal (fun empty => bare (eq_mark_of_stripMark nonempty empty)),
          decode_outChunks _ (Nat.lt_succ_self _)]
        rfl

end Embedded

section Text

variable (io : Stdio)

/-- Exactly which files keep their program text. After a mark, only the mark alone is a problem.
Without one there must be none at offset 1, and a `#` among the first four bytes must be the very
first, on a line that does not end there unless it ends the file. The line reader must see the end
of a `#` line. -/
def Bundled (c : Bytes) : Prop :=
  if byteOrderMark <+: c then
    c ≠ byteOrderMark ∧ ((c.drop 3).head? = some hash → LineEndSeen io (c.drop 4))
  else
    ¬ byteOrderMark <+: c.tail ∧
    (hash ∈ c.take 4 → c.head? = some hash ∧
      if newline ∈ c.take 4 then c.length ≤ 4 ∧ afterLine c = []
      else LineEndSeen io (c.drop 4))

theorem embedded_marked {c : Bytes} (mark : byteOrderMark <+: c) (more : c ≠ byteOrderMark) :
    embedded io c = programText c ↔ ((c.drop 3).head? = some hash → LineEndSeen io (c.drop 4)) := by
  obtain ⟨d, rfl⟩ := mark
  cases d with
  | nil => simp at more
  | cons x rest =>
    have stripped : stripMark ((byteOrderMark ++ x :: rest).take 4) = [x] := rfl
    have fourth : ((byteOrderMark ++ x :: rest).drop 3).head? = some x := rfl
    have left : (byteOrderMark ++ x :: rest).drop 4 = rest := rfl
    have text : (byteOrderMark ++ x :: rest).drop 3 = x :: rest := rfl
    rw [embedded, stripped, programText, if_pos (List.prefix_append _ _), fourth, left, text]
    rcases eq_or_ne x hash with rfl | comment
    · simp [afterLine_cons (show hash ≠ newline by decide), readLine_rest]
    · simp [comment, Ne.symm comment]

/-- A mark one byte late is cut out of the file with the byte before it. -/
theorem embedded_late_mark {c : Bytes} (unmarked : ¬ byteOrderMark <+: c)
    (late : byteOrderMark <+: c.tail) : embedded io c ≠ programText c := by
  cases c with
  | nil => simp [byteOrderMark] at late
  | cons y d =>
    rw [List.tail_cons] at late
    obtain ⟨rest, rfl⟩ := late
    have found : byteOrderMark <:+: (y :: (byteOrderMark ++ rest)).take 4 :=
      (infix_take_four _).mpr (.inr (List.prefix_append _ _))
    have stripped : stripMark ((y :: (byteOrderMark ++ rest)).take 4) = [0xbf] := by
      rw [stripMark, if_pos found]
      rfl
    rw [embedded, stripped, programText, if_neg unmarked, if_neg (by decide)]
    intro same
    split_ifs at same with comment
    · exact absurd (List.cons.inj same).1 (by decide)
    · have length := congrArg List.length same
      simp [byteOrderMark] at length

theorem stripMark_unmarked {c : Bytes} (unmarked : ¬ byteOrderMark <+: c)
    (late : ¬ byteOrderMark <+: c.tail) : stripMark (c.take 4) = c.take 4 := by
  rw [stripMark, if_neg]
  rw [infix_take_four]
  exact not_or.mpr ⟨unmarked, late⟩

/-- A `#` that is not the first byte costs the line it is in. -/
theorem embedded_inner_hash {c : Bytes} (unmarked : ¬ byteOrderMark <+: c)
    (late : ¬ byteOrderMark <+: c.tail) (comment : hash ∈ c.take 4) (inner : c.head? ≠ some hash) :
    embedded io c ≠ programText c := by
  rw [embedded, stripMark_unmarked unmarked late, if_pos comment, programText, if_neg unmarked,
    if_neg inner]
  intro same
  have length := congrArg List.length same
  have rest := readLine_length io (c.drop 4)
  simp only [List.length_cons, List.length_drop] at length rest
  have long : 2 ≤ c.length := by
    match c, comment, inner with
    | [x], comment, inner => exact absurd (by simpa using comment) (fun same => inner (by simp [same]))
    | x :: y :: c, _, _ => simp
  by_cases short : c.length ≤ 4
  · omega
  · have := rest.2 (List.ne_nil_of_length_pos (by rw [List.length_drop]; omega))
    omega

theorem afterLine_of_ended {start : Bytes} (ended : newline ∈ start) (rest : Bytes) :
    afterLine (start ++ rest) = afterLine start ++ rest := by
  obtain ⟨first, last, plain, rfl⟩ : ∃ first last, newline ∉ first ∧ start = first ++ newline :: last := by
    obtain ⟨first, last, split, plain⟩ := List.eq_append_cons_of_mem ended
    exact ⟨first, last, plain, split⟩
  rw [afterLine_of_end plain, List.append_assoc, List.cons_append, afterLine_of_end plain]

/-- A file that starts with `#` has its first line replaced, unless that line ends among the bytes
already read and something follows it. -/
theorem embedded_first_hash {c : Bytes} (unmarked : ¬ byteOrderMark <+: c)
    (late : ¬ byteOrderMark <+: c.tail) (comment : hash ∈ c.take 4) (first : c.head? = some hash) :
    embedded io c = programText c ↔ if newline ∈ c.take 4 then c.length ≤ 4 ∧ afterLine c = []
      else LineEndSeen io (c.drop 4) := by
  rw [embedded, stripMark_unmarked unmarked late, if_pos comment, programText, if_neg unmarked,
    if_pos first, List.cons_inj_right]
  have split := List.take_append_drop 4 c
  split_ifs with ended
  · have text : afterLine c = afterLine (c.take 4) ++ c.drop 4 := by
      rw [← afterLine_of_ended ended, split]
    constructor
    · intro same
      have length := congrArg List.length (same.trans text)
      have rest := readLine_length io (c.drop 4)
      rw [List.length_append] at length
      have done : c.drop 4 = [] := by
        by_contra more
        have := rest.2 more
        omega
      rw [← same, done]
      exact ⟨List.drop_eq_nil_iff.mp done, rfl⟩
    · rintro ⟨short, done⟩
      rw [List.drop_eq_nil_of_le short, done]
      rfl
  · have text : afterLine c = afterLine (c.drop 4) := by
      conv_lhs => rw [← split]
      exact afterLine_of_cut ended
    rw [text, readLine_rest]

end Text

/-- A bundled file decodes to its program text exactly under `Bundled`. -/
theorem outLuaSource_decodes_iff (io : Stdio) (c : Bytes) :
    decode (outLuaSource io c) = some (programText c) ↔ Bundled io c := by
  rw [decode_outLuaSource, Bundled]
  by_cases mark : byteOrderMark <+: c
  · rw [if_pos mark]
    rcases eq_or_ne c byteOrderMark with rfl | bare
    · simp
    · rw [if_neg bare, Option.some_inj, embedded_marked io mark bare]
      exact (and_iff_right bare).symm
  · have other : c ≠ byteOrderMark := fun same => mark (same ▸ List.prefix_refl _)
    rw [if_neg mark, if_neg other, Option.some_inj]
    by_cases late : byteOrderMark <+: c.tail
    · simp only [late, not_true_eq_false, false_and, iff_false]
      exact embedded_late_mark io mark late
    · rw [and_iff_right late]
      by_cases comment : hash ∈ c.take 4
      · simp only [comment, true_implies]
        by_cases first : c.head? = some hash
        · rw [and_iff_right first]
          exact embedded_first_hash io mark late comment first
        · simp only [first, false_and, iff_false]
          exact embedded_inner_hash io mark late comment first
      · have untouched : embedded io c = programText c := by
          rw [embedded, stripMark_unmarked mark late, if_neg comment, List.take_append_drop,
            programText, if_neg mark, if_neg]
          intro first
          cases c with
          | nil => simp at first
          | cons x c =>
            obtain rfl : x = hash := by simpa using first
            exact comment (by simp)
        simp [comment, untouched]

/-- `n=#t` loses its text to the length operator. -/
theorem length_operator_lost :
    ¬ ∀ (io : Stdio) (c : Bytes), decode (outLuaSource io c) = some (programText c) := by
  intro preserved
  have kept := preserved ⟨8192, by decide⟩ [110, 61, 35, 116]
  rw [decode_outLuaSource, if_neg (by decide), Option.some_inj] at kept
  revert kept
  decide

end OmniaJit.Bin
