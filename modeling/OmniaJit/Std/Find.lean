import OmniaJit.Lua.FileLines
import OmniaJit.Lua.LibString

/-! # `table.find` and `file.find`

Both loops return in either branch of their body, so they look at the first value that is visited, or
at the first line that is read, and at nothing else.
-/

namespace OmniaJit.Std

open OmniaJit.Lua OmniaJit.Lua.LibString

/-- `tval` without its control characters. -/
def printable (tval : Bytes) : Bytes := tval.filter fun c => !decide (c < 32 ∨ c = 127)

/-- The body of either loop, for the text that is searched. -/
def decideOn (s str : Bytes) (plain : Bool) : Except PatternError (Option Bool) := do
  if (← find s str 1 plain).isSome then return some true else return some false

/-- `table.find(tbl, str, plain)`, for the values in the order `next` visits them. -/
def t_find (visits : List Bytes) (str : Bytes) (plain : Bool) : Except PatternError (Option Bool) :=
  match visits with
  | [] => return none
  | tval :: _ => do
    let (tval, _) ← gsub tval (ascii "[%c]") (.string []) none
    decideOn tval str plain

/-- `file.find(file, str, plain, fmt)`, for the content of the file. -/
def f_find (io : Stdio) (file str : Bytes) (plain : Bool) (fmt : Option Format) :
    Except PatternError (Option Bool) :=
  match ((fmt.getD (.line false)).read io file).1 with
  | none => return none
  | some s => decideOn s str plain

/-- `s` contains a match. -/
def Contains (str : Bytes) (plain : Bool) (s : Bytes) : Prop := ∃ found, find s str 1 plain = .ok (some found)

theorem decideOn_iff (s str : Bytes) (plain : Bool) :
    decideOn s str plain = .ok (some true) ↔ Contains str plain s := by
  rw [decideOn, Contains]
  cases find s str 1 plain with
  | error e => simp [bind, Except.bind]
  | ok found => cases found <;> simp [bind, Except.bind, pure, Except.pure]

theorem lj_char_iscntrl (c : UInt8) : lj_char_isa c LJ_CHAR_CNTRL = decide (c < 32 ∨ c = 127) := by
  have all : ∀ n < 256, lj_char_isa (UInt8.ofNat n) LJ_CHAR_CNTRL =
      decide (UInt8.ofNat n < 32 ∨ UInt8.ofNat n = 127) := by decide +kernel
  rw [← UInt8.ofNat_toNat (x := c)]
  exact all c.toNat c.toNat_lt

theorem matchesOne_cntrl : MatchesOne (ascii "[%c]") fun c => decide (c < 32 ∨ c = 127) := by
  have item := @matchesOne_item '['.toUInt8 (ascii "%c]") (by decide) rfl
  have single (c : UInt8) : singlematch c (ascii "[%c]") = decide (c < 32 ∨ c = 127) := by
    have set : singlematch c (ascii "[%c]") = if lj_char_isa c LJ_CHAR_CNTRL then true else false := rfl
    rw [set, lj_char_iscntrl]
    cases decide (c < 32 ∨ c = 127) <;> rfl
  intro src s
  rw [← funext single]
  exact item src s

theorem gsub_cntrl (tval : Bytes) : gsub tval (ascii "[%c]") (.string []) none =
    .ok (printable tval, tval.countP fun c => decide (c < 32 ∨ c = 127)) := by
  rw [@gsub_item _ _ _ (fun _ => []) matchesOne_cntrl (by decide) (by decide) (fun _ _ _ => rfl),
    replaceEach_nil]
  rfl

section Loops

variable (str : Bytes) (plain : Bool)

/-- The first value decides. -/
theorem t_find_iff (visits : List Bytes) : t_find visits str plain = .ok (some true) ↔
    ∃ tval ∈ visits.head?, Contains str plain (printable tval) := by
  cases visits with
  | nil => simp [t_find, pure, Except.pure]
  | cons tval rest =>
    have replaced : t_find (tval :: rest) str plain = decideOn (printable tval) str plain := by
      rw [t_find, gsub_cntrl]
      rfl
    rw [replaced]
    simpa using decideOn_iff (printable tval) str plain

/-- The first line that is read decides. -/
theorem f_find_iff (io : Stdio) (file : Bytes) : f_find io file str plain none = .ok (some true) ↔
    ∃ s ∈ (readLineEnd io file).1, Contains str plain s := by
  have default : (((none : Option Format).getD (.line false)).read io file).1 = (readLineEnd io file).1 := rfl
  rw [f_find, default]
  cases (readLineEnd io file).1 with
  | none => simp [pure, Except.pure]
  | some s => simpa using decideOn_iff s str plain

end Loops

/-- An answer about one element of a list is an answer about all of them exactly when this element has the
property or none of them has. -/
theorem first_answers_iff {α : Type*} {first : Option α} {all : List α} (listed : ∀ a ∈ first, a ∈ all)
    (holds : α → Prop) :
    ((∃ a ∈ first, holds a) ↔ ∃ a ∈ all, holds a) ↔
      (∃ a ∈ first, holds a) ∨ ∀ a ∈ all, ¬ holds a := by
  constructor
  · intro same
    rcases em (∃ a ∈ all, holds a) with some | none
    · exact .inl (same.mpr some)
    · exact .inr fun a member holds => none ⟨a, member, holds⟩
  · rintro (⟨a, member, holds⟩ | none)
    · exact iff_of_true ⟨a, member, holds⟩ ⟨a, listed a member, holds⟩
    · apply iff_of_false
      · exact fun ⟨a, member, holds⟩ => none a (listed a member) holds
      · exact fun ⟨a, member, holds⟩ => none a member holds

theorem orders_agree_iff {α : Type*} (all : List α) (holds : α → Prop) :
    (∀ order : List α, order.Perm all → ((∃ a ∈ order.head?, holds a) ↔ ∃ a ∈ all, holds a)) ↔
      (∀ a ∈ all, holds a) ∨ ∀ a ∈ all, ¬ holds a := by
  constructor
  · intro agree
    rcases em (∃ a ∈ all, holds a) with some | none
    · refine .inl fun a member => ?_
      -- an order that begins with `a`
      obtain ⟨before, after, rfl⟩ := List.append_of_mem member
      obtain ⟨b, first, found⟩ := (agree (a :: (before ++ after)) List.perm_middle.symm).mpr some
      obtain rfl := Option.some.inj first
      exact found
    · exact .inr fun a member holds => none ⟨a, member, holds⟩
  · intro uniform order perm
    have members (a : α) : a ∈ order.head? → a ∈ all := fun first =>
      perm.mem_iff.mp (List.mem_of_mem_head? first)
    rcases uniform with every | none
    · constructor
      · exact fun ⟨a, first, holds⟩ => ⟨a, members a first, holds⟩
      · rintro ⟨a, member, -⟩
        obtain ⟨b, rest, rfl⟩ := List.exists_cons_of_ne_nil (List.ne_nil_of_mem (perm.mem_iff.mpr member))
        exact ⟨b, rfl, every b (members b rfl)⟩
    · apply iff_of_false
      · exact fun ⟨a, first, holds⟩ => none a (members a first) holds
      · exact fun ⟨a, member, holds⟩ => none a member holds

/-- `table.find` answers for the table exactly when the first value it visits has a match or no value has,
in every order exactly when all values have a match or none has. `file.find` answers for the file exactly
when the first text it reads and some line have a match or neither that text nor any line has; a first line
without a NUL byte is that text. -/
theorem find_searches_iff (visits : List Bytes) (io : Stdio) (file str : Bytes) (plain : Bool) :
    ((t_find visits str plain = .ok (some true) ↔ ∃ v ∈ visits, Contains str plain (printable v)) ↔
      (∃ v ∈ visits.head?, Contains str plain (printable v)) ∨
        ∀ v ∈ visits, ¬ Contains str plain (printable v)) ∧
    ((∀ order : List Bytes, order.Perm visits →
        (t_find order str plain = .ok (some true) ↔ ∃ v ∈ visits, Contains str plain (printable v))) ↔
      (∀ v ∈ visits, Contains str plain (printable v)) ∨ ∀ v ∈ visits, ¬ Contains str plain (printable v)) ∧
    ((f_find io file str plain none = .ok (some true) ↔ ∃ line ∈ lines file, Contains str plain line) ↔
      ((∃ s ∈ (readLineEnd io file).1, Contains str plain s) ∧ ∃ line ∈ lines file, Contains str plain line) ∨
        (¬ (∃ s ∈ (readLineEnd io file).1, Contains str plain s) ∧
          ¬ ∃ line ∈ lines file, Contains str plain line)) ∧
    (file ≠ [] → 0 ∉ firstLine file →
      ((f_find io file str plain none = .ok (some true) ↔ ∃ line ∈ lines file, Contains str plain line) ↔
        Contains str plain (firstLine file) ∨ ∀ line ∈ lines file, ¬ Contains str plain line)) := by
  refine ⟨?table, ?orders, ?file, ?text⟩
  case table =>
    rw [t_find_iff]
    exact first_answers_iff (fun v first => List.mem_of_mem_head? first) _
  case orders =>
    simp only [t_find_iff]
    exact orders_agree_iff visits _
  case file =>
    rw [f_find_iff]
    exact iff_iff_and_or_not_and_not
  case text =>
    intro more text
    have first : (readLineEnd io file).1 = (lines file).head? := by
      rw [readLineEnd_text io more text, head?_lines more]
    rw [f_find_iff, first, first_answers_iff (fun line head => List.mem_of_mem_head? head), head?_lines more]
    simp

/-- A file of one line, with a match. -/
theorem find_searches_iff_line :
    f_find ⟨8192, by decide⟩ (ascii "ab\n") (ascii "b") true none = .ok (some true) ↔
      ∃ line ∈ lines (ascii "ab\n"), Contains (ascii "b") true line :=
  ((find_searches_iff [] ⟨8192, by decide⟩ (ascii "ab\n") (ascii "b") true).2.2.2
    (by decide) (by decide)).mpr (.inl ⟨_, rfl⟩)

/-- The second value has a match, and so has the second line. -/
theorem find_second :
    (t_find [ascii "a", ascii "b"] (ascii "b") true = .ok (some false) ∧
      Contains (ascii "b") true (printable (ascii "b"))) ∧
    f_find ⟨8192, by decide⟩ (ascii "a\nb\n") (ascii "b") true none = .ok (some false) ∧
      ascii "b\n" ∈ lines (ascii "a\nb\n") ∧ Contains (ascii "b") true (ascii "b\n") := by
  refine ⟨⟨by decide +kernel, ⟨1, 1, []⟩, by decide +kernel⟩, by decide +kernel, by decide +kernel,
    ⟨1, 1, []⟩, by decide +kernel⟩

end OmniaJit.Std
