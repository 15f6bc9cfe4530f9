import OmniaJit.Vendor.JsonNumbers
import OmniaJit.Vendor.JsonStrings

/-! # The grammar from the front

The first character of a value tells what it is, and that is what the table of the decoder holds. The items of an
array and the members of an object are taken apart from the front: a value, the spaces behind it, a comma or a
bracket.
-/

namespace OmniaJit.Vendor.LunaJson

open OmniaJit.Data OmniaJit.Data.Json

variable {ν : Type} {num : Numbers ν} {v : Value ν} {c : UInt8} {t text r w : Text}

section Spaces

theorem dropWhile_spaces (spaces : Spaces w) (head : ∀ c ∈ t.head?, ¬isSpace c) :
    (w ++ t).dropWhile isSpace = t := by
  refine (takeWhile_word spaces ?_).2
  cases t with
  | nil => exact Bool.false_ne_true
  | cons c t => exact head c rfl

/-- The text is split behind the spaces. -/
theorem spaces_split (text : Text) : ∃ w, Spaces w ∧ text = w ++ text.dropWhile isSpace :=
  ⟨text.takeWhile isSpace, fun _ member => List.mem_takeWhile_imp member, List.takeWhile_append_dropWhile.symm⟩

theorem spaces_cons_iff (space : ¬isSpace c) :
    (∃ w, Spaces w ∧ text = w ++ c :: r) ↔ text.dropWhile isSpace = c :: r := by
  constructor
  · rintro ⟨w, spaces, rfl⟩
    exact dropWhile_spaces spaces fun d head => by rwa [← Option.some.inj head]
  · intro same
    obtain ⟨w, spaces, split⟩ := spaces_split text
    exact ⟨w, spaces, by rw [← same, ← split]⟩

end Spaces

section Table

theorem jump_space (space : isSpace c) : jump c = .err :=
  forall_byte (P := fun c => isSpace c → jump c = .err) (by decide +kernel) c space

theorem jump_high (high : ¬c < 128) : jump c = .err :=
  forall_byte (P := fun c => ¬c < 128 → jump c = .err) (by decide +kernel) c high

theorem jump_digit (digit : isDigit c) : jump c = .zro ∨ jump c = .num :=
  forall_byte (P := fun c => isDigit c → jump c = .zro ∨ jump c = .num) (by decide +kernel) c digit

/-- The first character, from the function it stands for. -/
def Begins (f : Fn) (c : UInt8) : Prop :=
  match f with
  | .err => True
  | .str => c = 34
  | .mns => c = 45
  | .zro => c = 48
  | .num => 49 ≤ c ∧ c ≤ 57
  | .ary => c = 91
  | .fls => c = 102
  | .nul => c = 110
  | .tru => c = 116
  | .obj => c = 123

theorem begins_jump (c : UInt8) : Begins (jump c) c := by
  unfold jump
  split_ifs <;> first | assumption | trivial

/-- The text behind the first character, for each function. -/
def ScalarTail (num : Numbers ν) (c : UInt8) (v : Value ν) (t : Text) : Fn → Prop
  | .nul => v = .null ∧ t = [117, 108, 108]
  | .fls => v = .boolean false ∧ t = [97, 108, 115, 101]
  | .tru => v = .boolean true ∧ t = [114, 117, 101]
  | .zro | .num => Numerals num false v (c :: t)
  | .mns => Numerals num true v t
  | .str => ∃ body s, t = body ++ [34] ∧ Accepted body s ∧ v = .string s
  | .ary | .obj | .err => False

theorem scalar_cons_iff : Scalar num Accepted v (c :: t) ↔ ScalarTail num c v t (jump c) := by
  constructor
  · intro scalar
    generalize whole : c :: t = text at scalar
    cases scalar with
    | null =>
      cases whole
      exact ⟨rfl, rfl⟩
    | false =>
      cases whole
      exact ⟨rfl, rfl⟩
    | true =>
      cases whole
      exact ⟨rfl, rfl⟩
    | @number n valid =>
      obtain ⟨d, t', text, digit⟩ := numeral_head valid
      obtain ⟨rfl, -⟩ := List.cons.inj (whole.trans text)
      rcases jump_digit digit with zero | other
      · rw [zero]
        exact ⟨n, valid, whole, rfl⟩
      · rw [other]
        exact ⟨n, valid, whole, rfl⟩
    | @negative n valid =>
      cases whole
      exact ⟨n, valid, rfl, rfl⟩
    | @string body s stands =>
      cases whole
      exact ⟨body, s, rfl, stands, rfl⟩
  · intro tail
    have begins := begins_jump c
    cases found : jump c with
    | nul =>
      rw [found] at tail begins
      obtain ⟨rfl, rfl⟩ := tail
      cases begins
      exact .null
    | fls =>
      rw [found] at tail begins
      obtain ⟨rfl, rfl⟩ := tail
      cases begins
      exact .false
    | tru =>
      rw [found] at tail begins
      obtain ⟨rfl, rfl⟩ := tail
      cases begins
      exact .true
    | zro =>
      rw [found] at tail
      obtain ⟨n, valid, whole, rfl⟩ := tail
      rw [whole]
      exact .number valid
    | num =>
      rw [found] at tail
      obtain ⟨n, valid, whole, rfl⟩ := tail
      rw [whole]
      exact .number valid
    | mns =>
      rw [found] at tail begins
      obtain ⟨n, valid, rfl, rfl⟩ := tail
      cases begins
      exact .negative valid
    | str =>
      rw [found] at tail begins
      obtain ⟨body, s, rfl, accepted, rfl⟩ := tail
      cases begins
      exact .string accepted
    | ary =>
      rw [found] at tail
      exact tail.elim
    | obj =>
      rw [found] at tail
      exact tail.elim
    | err =>
      rw [found] at tail
      exact tail.elim

end Table

section Lists

variable {α : Type} {close : UInt8} {item : α → Text → Prop} {stop : α → Text → Prop} {as : List α}

/-- The text begins with one that stands for the thing, and what follows may follow it. -/
def FrontWith (item : α → Text → Prop) (stop : α → Text → Prop) (text : Text) (a : α) (r : Text) : Prop :=
  ∃ t, text = t ++ r ∧ item a t ∧ stop a r

/-- The text begins with things in a row. -/
def ListedFront (close : UInt8) (item : α → Text → Prop) (text : Text) (as : List α) (r : Text) : Prop :=
  ∃ t, text = t ++ r ∧ Listed close item as t

theorem listed_head (heads : ∀ a t, item a t → ∃ c t', t = c :: t' ∧ ¬isSpace c) {t : Text}
    (listed : Listed close item as t) (r : Text) : ∀ c ∈ (t ++ r).head?, ¬isSpace c := by
  intro c head
  cases listed with
  | last one spaces =>
    obtain ⟨d, t, rfl, other⟩ := heads _ _ one
    cases head
    exact other
  | more one spaces spaces' others =>
    obtain ⟨d, t, rfl, other⟩ := heads _ _ one
    cases head
    exact other

theorem listedFront_spaces (heads : ∀ a t, item a t → ∃ c t', t = c :: t' ∧ ¬isSpace c) :
    (∃ w t, text = w ++ (t ++ r) ∧ Spaces w ∧ Listed close item as t) ↔
      ListedFront close item (text.dropWhile isSpace) as r := by
  constructor
  · rintro ⟨w, t, rfl, spaces, listed⟩
    rw [dropWhile_spaces spaces (listed_head heads listed r)]
    exact ⟨t, rfl, listed⟩
  · rintro ⟨t, same, listed⟩
    obtain ⟨w, spaces, split⟩ := spaces_split text
    exact ⟨w, t, by rw [← same, ← split], spaces, listed⟩

/-- The thing comes first, and then a comma and the others, or the bracket. -/
theorem listedFront_iff (heads : ∀ a t, item a t → ∃ c t', t = c :: t' ∧ ¬isSpace c)
    (stops : ∀ a w c r, Spaces w → c = 44 ∨ c = close → stop a (w ++ c :: r)) (bracket : ¬isSpace close) :
    ListedFront close item text as r ↔ ∃ a r', FrontWith item stop text a r' ∧
      ((∃ r'', r'.dropWhile isSpace = 44 :: r'' ∧ ∃ as', as = a :: as' ∧
          ListedFront close item (r''.dropWhile isSpace) as' r) ∨
        r'.dropWhile isSpace = close :: r ∧ as = [a]) := by
  have comma : ¬isSpace 44 := by decide
  constructor
  · rintro ⟨t, rfl, listed⟩
    cases listed with
    | @last a t w one spaces =>
      refine ⟨a, w ++ close :: r, ⟨t, by simp, one, stops a w close r spaces (.inr rfl)⟩, .inr ⟨?_, rfl⟩⟩
      exact (spaces_cons_iff bracket).mp ⟨w, spaces, rfl⟩
    | @more a as t w w' rest one spaces spaces' others =>
      refine ⟨a, w ++ 44 :: (w' ++ (rest ++ r)), ⟨t, by simp, one, stops a w 44 _ spaces (.inl rfl)⟩, .inl ?_⟩
      refine ⟨w' ++ (rest ++ r), (spaces_cons_iff comma).mp ⟨w, spaces, rfl⟩, as, rfl, ?_⟩
      exact (listedFront_spaces heads).mp ⟨w', rest, rfl, spaces', others⟩
  · rintro ⟨a, r', ⟨t, rfl, one, -⟩, ⟨r'', found, as', rfl, others⟩ | ⟨found, rfl⟩⟩
    · obtain ⟨w, spaces, rfl⟩ := (spaces_cons_iff comma).mpr found
      obtain ⟨w', rest, rfl, spaces', others⟩ := (listedFront_spaces heads).mpr others
      exact ⟨t ++ (w ++ 44 :: (w' ++ rest)), by simp, .more one spaces spaces' others⟩
    · obtain ⟨w, spaces, rfl⟩ := (spaces_cons_iff bracket).mpr found
      exact ⟨t ++ (w ++ [close]), by simp, .last one spaces⟩

end Lists

section Nesting

variable {inner : Value ν → Text → Prop} {n : ℕ}

/-- What can follow a value: behind a number no more of it. -/
def Stops (v : Value ν) (r : Text) : Prop := (∃ n, v = .number n) → Ends r

theorem ends_spaces (spaces : Spaces w) (c : UInt8) (other : ¬isMark c ∧ ¬isDigit c) : Ends (w ++ c :: r) := by
  cases w with
  | nil =>
    rintro d ⟨rfl⟩
    exact other
  | cons e w =>
    rintro d ⟨rfl⟩
    exact forall_byte (P := fun c => isSpace c → ¬isMark c ∧ ¬isDigit c) (by decide +kernel) e
      (spaces e (List.mem_cons_self ..))

/-- The first character of a value is one of those in the table. -/
theorem stands_head {t : Text} (stands : Stands num Accepted n v t) : ∃ c t', t = c :: t' ∧ jump c ≠ .err := by
  have scalar (scalar : Scalar num Accepted v t) : ∃ c t', t = c :: t' ∧ jump c ≠ .err := by
    obtain ⟨c, t', rfl⟩ : ∃ c t', t = c :: t' := by
      cases scalar with
      | number valid =>
        obtain ⟨c, t, text, -⟩ := numeral_head valid
        exact ⟨c, t, text⟩
      | _ => exact ⟨_, _, rfl⟩
    refine ⟨c, t', rfl, fun error => ?_⟩
    have tail := scalar_cons_iff.mp scalar
    rw [error] at tail
    exact tail
  cases n with
  | zero => exact scalar stands
  | succ n =>
    rcases stands with flat | nested
    · exact scalar flat
    · cases nested with
      | noItems | items => exact ⟨91, _, rfl, by decide⟩
      | noMembers | members => exact ⟨123, _, rfl, by decide⟩

theorem stands_space {t : Text} (stands : Stands num Accepted n v t) : ∃ c t', t = c :: t' ∧ ¬isSpace c := by
  obtain ⟨c, t', same, entry⟩ := stands_head stands
  exact ⟨c, t', same, fun space => entry (jump_space space)⟩

/-- An array, behind its bracket. -/
theorem array_front_iff (heads : ∀ v t, inner v t → ∃ c t', t = c :: t' ∧ ¬isSpace c) :
    Front (Nested Accepted inner) (91 :: text) v r ↔
      (v = .array [] ∧ text.dropWhile isSpace = 93 :: r) ∨
        ∃ vs, v = .array vs ∧ ListedFront 93 inner (text.dropWhile isSpace) vs r := by
  have bracket : ¬isSpace 93 := by decide
  constructor
  · rintro ⟨_, same, nested, -⟩
    cases nested with
    | @noItems w spaces =>
      refine .inl ⟨rfl, (spaces_cons_iff bracket).mp ⟨w, spaces, ?_⟩⟩
      exact (List.cons.inj same).2.trans (by simp)
    | @items vs w t spaces items =>
      refine .inr ⟨vs, rfl, (listedFront_spaces heads).mp ⟨w, t, ?_, spaces, items⟩⟩
      exact (List.cons.inj same).2.trans (by simp)
    | noMembers => exact absurd (List.cons.inj same).1 (by decide)
    | members => exact absurd (List.cons.inj same).1 (by decide)
  · rintro (⟨rfl, found⟩ | ⟨vs, rfl, found⟩)
    · obtain ⟨w, spaces, rfl⟩ := (spaces_cons_iff bracket).mpr found
      exact ⟨91 :: (w ++ [93]), by simp, .noItems spaces, by simp⟩
    · obtain ⟨w, t, rfl, spaces, items⟩ := (listedFront_spaces heads).mpr found
      exact ⟨91 :: (w ++ t), by simp, .items spaces items, by simp⟩

theorem member_head (m : Text × Value ν) (t : Text) (member : Member Accepted inner m t) :
    ∃ c t', t = c :: t' ∧ ¬isSpace c := by
  cases member
  exact ⟨34, _, rfl, by decide⟩

/-- An object, behind its bracket. -/
theorem object_front_iff :
    Front (Nested Accepted inner) (123 :: text) v r ↔
      (v = .object [] ∧ text.dropWhile isSpace = 125 :: r) ∨
        ∃ ms, v = .object (putAll ms) ∧ ListedFront 125 (Member Accepted inner) (text.dropWhile isSpace) ms r := by
  have bracket : ¬isSpace 125 := by decide
  constructor
  · rintro ⟨_, same, nested, -⟩
    cases nested with
    | noItems => exact absurd (List.cons.inj same).1 (by decide)
    | items => exact absurd (List.cons.inj same).1 (by decide)
    | @noMembers w spaces =>
      refine .inl ⟨rfl, (spaces_cons_iff bracket).mp ⟨w, spaces, ?_⟩⟩
      exact (List.cons.inj same).2.trans (by simp)
    | @members ms w t spaces members =>
      refine .inr ⟨ms, rfl, (listedFront_spaces member_head).mp ⟨w, t, ?_, spaces, members⟩⟩
      exact (List.cons.inj same).2.trans (by simp)
  · rintro (⟨rfl, found⟩ | ⟨ms, rfl, found⟩)
    · obtain ⟨w, spaces, rfl⟩ := (spaces_cons_iff bracket).mpr found
      exact ⟨123 :: (w ++ [125]), by simp, .noMembers spaces, by simp⟩
    · obtain ⟨w, t, rfl, spaces, members⟩ := (listedFront_spaces member_head).mpr found
      exact ⟨123 :: (w ++ t), by simp, .members spaces members, by simp⟩

/-- A key, the colon and the value. -/
theorem member_front_iff (heads : ∀ v t, inner v t → ∃ c t', t = c :: t' ∧ ¬isSpace c) {m : Text × Value ν} :
    FrontWith (Member Accepted inner) (fun m => Stops m.2) text m r ↔ ∃ text' r' r'', text = 34 :: text' ∧
      Quoted text' m.1 r' ∧ r'.dropWhile isSpace = 58 :: r'' ∧ Front inner (r''.dropWhile isSpace) m.2 r := by
  have colon : ¬isSpace 58 := by decide
  constructor
  · rintro ⟨_, rfl, member, stops⟩
    cases member with
    | @mk body k v w w' t key spaces spaces' item =>
      have head : ∀ c ∈ (t ++ r).head?, ¬isSpace c := by
        obtain ⟨d, t, rfl, other⟩ := heads v t item
        rintro c ⟨rfl⟩
        exact other
      refine ⟨_, w ++ 58 :: (w' ++ (t ++ r)), w' ++ (t ++ r), rfl, ⟨body, by simp, key⟩,
        (spaces_cons_iff colon).mp ⟨w, spaces, rfl⟩, ?_⟩
      rw [dropWhile_spaces spaces' head]
      exact ⟨t, rfl, item, stops⟩
  · rintro ⟨text', r', r'', rfl, ⟨body, rfl, key⟩, found, t, split, item, stops⟩
    obtain ⟨w, spaces, rfl⟩ := (spaces_cons_iff colon).mpr found
    obtain ⟨w', spaces', split'⟩ := spaces_split r''
    refine ⟨_, ?_, .mk key spaces spaces' item, stops⟩
    rw [split', split]
    simp

end Nesting

end OmniaJit.Vendor.LunaJson
