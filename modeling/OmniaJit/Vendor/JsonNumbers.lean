import OmniaJit.Vendor.JsonReader

/-! # Literals and numbers of the decoder

The functions for numbers find exactly the numerals of the grammar, as long as they can be, and the values they
compute are those of the decimal fractions.
-/

namespace OmniaJit.Vendor.LunaJson

open OmniaJit.Data OmniaJit.Data.Json OmniaJit.Machine OmniaJit.Machine.Program

variable {ν : Type} {num : Numbers ν} {json : Json} {s : State}

/-- What can stand behind a number. -/
def Ends (r : Text) : Prop := ∀ c ∈ r.head?, ¬isMark c ∧ ¬isDigit c

/-- The text begins with one that stands for the value; behind a number no more of it can follow. -/
def Front (J : Value ν → Text → Prop) (text : Text) (v : Value ν) (r : Text) : Prop :=
  ∃ t, text = t ++ r ∧ J v t ∧ ((∃ n, v = .number n) → Ends r)

section Digits

variable {u r digits : Text}

theorem takeWhile_digits (all : ∀ c ∈ digits, isDigit c) (stop : ∀ c ∈ r.head?, ¬isDigit c) :
    (digits ++ r).takeWhile isDigit = digits ∧ (digits ++ r).dropWhile isDigit = r := by
  refine takeWhile_word all ?_
  cases r with
  | nil => exact Bool.false_ne_true
  | cons c r => exact stop c rfl

theorem not_digit_dropWhile (u : Text) : ∀ c ∈ (u.dropWhile isDigit).head?, ¬isDigit c := by
  intro c head digit
  have stop : ¬(u.dropWhile isDigit).head?.any isDigit := dropWhile_head u
  rw [Option.mem_def.mp head] at stop
  exact stop digit

theorem digit_not_mark {c : UInt8} (digit : isDigit c) : ¬isMark c := by
  simp only [isDigit, isMark, Bool.and_eq_true, Bool.or_eq_true, decide_eq_true_eq, UInt8.le_iff_toNat_le,
    ← UInt8.toNat_inj] at digit ⊢
  simp only [UInt8.reduceToNat] at digit ⊢
  omega

end Digits

section Exponents

variable {pre u part : Text}

/-- The exponent of a numeral, or none. -/
abbrev Exp := Option (UInt8 × Option UInt8 × Text)

def Exp.Valid (e : Exp) : Prop :=
  ∀ x ∈ e, (x.1 = 101 ∨ x.1 = 69) ∧ (∀ sign ∈ x.2.1, sign = 43 ∨ sign = 45) ∧ Digits x.2.2

def Exp.text (e : Exp) : Text := e.elim [] fun x => x.1 :: (x.2.1.toList ++ x.2.2)

/-- What `exponentPart` returns. -/
def withExponent (pre u : Text) : Option Text :=
  match u.head?.filter isMark with
  | none => some pre
  | some c =>
    if isExponent c then
      match matchExponent (pre ++ u) with
      | some (part, none) => some part
      | _ => none
    else none

theorem exponentPart_eq (left : rest json s.pos = pre ++ u) : exponentPart json (u.head?.filter isMark) pre s =
    match withExponent pre u with
    | some part => .ok part s
    | none => .error (.parse s.pos "invalid number") s := by
  rw [withExponent]
  cases u.head?.filter isMark with
  | none => rfl
  | some c =>
    change (if isExponent c then (match matchExponent (rest json s.pos) with
      | some (part, none) => pure part
      | _ => number_error : M Text) else number_error) s = _
    rw [left]
    by_cases letter : isExponent c
    · simp only [if_pos letter]
      rcases matchExponent (pre ++ u) with _ | ⟨part, _ | mark⟩ <;> rfl
    · simp only [if_neg letter]
      rfl

theorem isExponent_iff (c : UInt8) : isExponent c ↔ c = 101 ∨ c = 69 := by
  rw [isExponent, Bool.or_eq_true, decide_eq_true_eq, decide_eq_true_eq]

theorem exponent_isMark {c : UInt8} (letter : isExponent c) : isMark c := by
  rcases (isExponent_iff c).mp letter with rfl | rfl <;> decide

/-- The match for an exponent, behind characters that are not its letter. -/
theorem matchExponent_append (plain : ∀ c ∈ pre, ¬isExponent c) {c : UInt8} (letter : isExponent c)
    {sign : Option UInt8} {digits r : Text} (signs : ∀ x ∈ sign, x = 43 ∨ x = 45) (valid : Digits digits)
    (stop : ∀ c ∈ r.head?, ¬isDigit c) : matchExponent (pre ++ c :: (sign.toList ++ (digits ++ r))) =
      some (pre ++ c :: (sign.toList ++ digits), r.head?.filter isMark) := by
  have others : ∀ x ∈ pre, (!isExponent x) = true := fun x member => by simp [plain x member]
  have head : ¬(fun c => !isExponent c) c = true := by simp [letter]
  have signText : (if (sign.toList ++ (digits ++ r)).head? = some 43 ∨ (sign.toList ++ (digits ++ r)).head? = some 45
      then (sign.toList ++ (digits ++ r)).take 1 else []) = sign.toList := by
    cases sign with
    | none =>
      obtain ⟨d, digits, rfl⟩ := List.exists_cons_of_ne_nil valid.1
      have digit := valid.2 d (List.mem_cons_self ..)
      refine if_neg ?_
      rintro (same | same)
      · cases same
        exact absurd digit (by decide)
      · cases same
        exact absurd digit (by decide)
    | some x => exact if_pos ((signs x rfl).imp (congrArg some) (congrArg some))
  rw [matchExponent, List.dropWhile_append_of_pos others,
    List.dropWhile_cons_of_neg (p := fun c => !isExponent c) head, List.takeWhile_append_of_pos others,
    List.takeWhile_cons_of_neg (p := fun c => !isExponent c) head, List.append_nil]
  simp only [signText]
  rw [List.drop_left, (takeWhile_digits valid.2 stop).1, if_neg valid.1, markAfter]
  have behind : pre ++ c :: (sign.toList ++ (digits ++ r)) = pre ++ c :: (sign.toList ++ digits) ++ r := by
    simp only [List.append_assoc, List.cons_append]
  rw [behind, List.drop_left]

/-- The match fails where there are no digits, and otherwise there is an exponent. -/
theorem matchExponent_split (plain : ∀ c ∈ pre, ¬isExponent c) {c : UInt8} (letter : isExponent c) (u : Text) :
    matchExponent (pre ++ c :: u) = none ∨ ∃ (sign : Option UInt8) (digits r : Text), (∀ x ∈ sign, x = 43 ∨ x = 45) ∧
      Digits digits ∧ u = sign.toList ++ (digits ++ r) ∧ ∀ c ∈ r.head?, ¬isDigit c := by
  have others : ∀ x ∈ pre, (!isExponent x) = true := fun x member => by simp [plain x member]
  have head : ¬(fun c => !isExponent c) c = true := by simp [letter]
  obtain ⟨sign, u', signs, split, signText⟩ : ∃ (sign : Option UInt8) (u' : Text), (∀ x ∈ sign, x = 43 ∨ x = 45) ∧
      u = sign.toList ++ u' ∧
        (if u.head? = some 43 ∨ u.head? = some 45 then u.take 1 else []) = sign.toList := by
    by_cases signed : u.head? = some 43 ∨ u.head? = some 45
    · cases u with
      | nil => exact absurd signed (by simp)
      | cons x u =>
        refine ⟨some x, u, ?_, rfl, if_pos signed⟩
        rintro _ ⟨rfl⟩
        exact signed.imp Option.some.inj Option.some.inj
    · exact ⟨none, u, by simp, rfl, if_neg signed⟩
  by_cases empty : u'.takeWhile isDigit = []
  · refine .inl ?_
    rw [matchExponent, List.dropWhile_append_of_pos others,
      List.dropWhile_cons_of_neg (p := fun c => !isExponent c) head]
    simp only [signText]
    rw [split, List.drop_left, if_pos empty]
  · refine .inr ⟨sign, u'.takeWhile isDigit, u'.dropWhile isDigit, signs, ⟨empty, ?_⟩, ?_, not_digit_dropWhile u'⟩
    · exact fun c member => List.mem_takeWhile_imp member
    · rw [List.takeWhile_append_dropWhile, split]

theorem filter_isMark_eq_none (ends : Ends u) : u.head?.filter isMark = none := by
  cases u with
  | nil => rfl
  | cons c u =>
    rw [List.head?_cons, Option.filter_some, if_neg (ends c rfl).1]

theorem ends_of_filter (none_ : u.head?.filter isMark = none) (stop : ∀ c ∈ u.head?, ¬isDigit c) : Ends u := by
  intro c head
  refine ⟨fun mark => ?_, stop c head⟩
  rw [Option.mem_def.mp head, Option.filter_some, if_pos mark] at none_
  cases none_

theorem withExponent_eq_some_iff (plain : ∀ c ∈ pre, ¬isExponent c) (stop : ∀ c ∈ u.head?, ¬isDigit c) :
    withExponent pre u = some part ↔
      ∃ (e : Exp) (r : Text), e.Valid ∧ u = e.text ++ r ∧ Ends r ∧ part = pre ++ e.text := by
  constructor
  · intro done
    rw [withExponent] at done
    cases mark : u.head?.filter isMark with
    | none =>
      rw [mark] at done
      cases done
      exact ⟨none, u, by simp [Exp.Valid], rfl, ends_of_filter mark stop, (List.append_nil _).symm⟩
    | some c =>
      rw [mark] at done
      simp only at done
      split_ifs at done with letter
      obtain ⟨head, -⟩ := Option.filter_eq_some_iff.mp mark
      obtain ⟨u, rfl⟩ : ∃ u', u = c :: u' := by
        cases u with
        | nil => cases head
        | cons d u =>
          cases head
          exact ⟨u, rfl⟩
      rcases matchExponent_split plain letter u with none_ | ⟨sign, digits, r, signs, valid, rfl, stop'⟩
      · rw [none_] at done
        cases done
      · rw [matchExponent_append plain letter signs valid stop'] at done
        cases mark' : r.head?.filter isMark with
        | some d =>
          rw [mark'] at done
          cases done
        | none =>
          rw [mark'] at done
          cases done
          refine ⟨some (c, sign, digits), r, ?_, ?_, ends_of_filter mark' stop', rfl⟩
          · rintro x ⟨rfl⟩
            exact ⟨(isExponent_iff c).mp letter, signs, valid⟩
          · simp [Exp.text]
  · rintro ⟨e, r, valid, rfl, ends, rfl⟩
    rw [withExponent]
    cases e with
    | none =>
      have none_ : ((Exp.text none ++ r).head?.filter isMark) = none := filter_isMark_eq_none ends
      rw [none_]
      exact congrArg some (List.append_nil _).symm
    | some x =>
      obtain ⟨c, sign, digits⟩ := x
      obtain ⟨letter, signs, valid⟩ := valid _ rfl
      have exponent : isExponent c := (isExponent_iff c).mpr letter
      have text : Exp.text (some (c, sign, digits)) ++ r = c :: (sign.toList ++ (digits ++ r)) := by simp [Exp.text]
      have found := matchExponent_append plain exponent signs valid fun d head => (ends d head).2
      rw [filter_isMark_eq_none ends] at found
      rw [text, List.head?_cons, Option.filter_some, if_pos (exponent_isMark exponent)]
      simp only [if_pos exponent, found]
      rfl

end Exponents

section Fractions

variable {pre u part digits r : Text}

theorem matchFraction_dot (all : ∀ c ∈ digits, isDigit c) (stop : ∀ c ∈ r.head?, ¬isDigit c) :
    matchFraction (46 :: (digits ++ r)) = (46 :: digits, r.head?.filter isMark) := by
  rw [matchFraction, List.head?_cons, if_pos rfl, List.tail_cons, (takeWhile_digits all stop).1, markAfter]
  rw [← List.cons_append, List.drop_left]

theorem matchFraction_none (point : u.head? ≠ some 46) (stop : ∀ c ∈ u.head?, ¬isDigit c) :
    matchFraction u = ([], u.head?.filter isMark) := by
  have nothing : ∀ c ∈ ([] : Text), isDigit c := by simp
  have empty : u.takeWhile isDigit = [] := (takeWhile_digits nothing stop).1
  rw [matchFraction, if_neg point, empty, markAfter]
  rfl

def fractionText (frac : Option Text) : Text := frac.elim [] fun f => 46 :: f

/-- What the functions for numbers make of what is behind the digits in front. -/
def afterInt (pre u : Text) : Option Text :=
  if (pre ++ (matchFraction u).1).getLast? = some 46 then none
  else withExponent (pre ++ (matchFraction u).1) (u.drop (matchFraction u).1.length)

theorem fraction_plain {frac : Option Text} (digits : ∀ c ∈ pre, isDigit c) (valid : ∀ f ∈ frac, Digits f) :
    ∀ c ∈ pre ++ fractionText frac, ¬isExponent c := by
  have other (c : UInt8) (digit : isDigit c) : ¬isExponent c :=
    fun letter => digit_not_mark digit (exponent_isMark letter)
  intro c member
  rcases List.mem_append.mp member with front | back
  · exact other c (digits c front)
  · cases frac with
    | none => cases back
    | some f =>
      rcases List.mem_cons.mp back with rfl | back
      · decide
      · exact other c ((valid f rfl).2 c back)

theorem getLast?_digits (all : ∀ c ∈ digits, isDigit c) : digits.getLast? ≠ some 46 := fun last =>
  absurd (all 46 (List.mem_of_getLast? last)) (by decide)

theorem exponent_head {e : Exp} (valid : e.Valid) (ends : Ends r) :
    ∀ c ∈ (e.text ++ r).head?, ¬isDigit c ∧ c ≠ 46 := by
  intro c head
  cases e with
  | none =>
    refine ⟨(ends c head).2, ?_⟩
    rintro rfl
    exact (ends 46 head).1 (by decide)
  | some x =>
    obtain rfl : x.1 = c := Option.some.inj head
    rcases (valid x rfl).1 with letter | letter <;> rw [letter] <;> decide

theorem afterInt_eq_some_iff (digits : ∀ c ∈ pre, isDigit c) (stop : ∀ c ∈ u.head?, ¬isDigit c) :
    afterInt pre u = some part ↔ ∃ (frac : Option Text) (e : Exp) (r : Text), (∀ f ∈ frac, Digits f) ∧ e.Valid ∧
      u = fractionText frac ++ (e.text ++ r) ∧ Ends r ∧ part = pre ++ (fractionText frac ++ e.text) := by
  constructor
  · intro done
    by_cases point : u.head? = some 46
    · obtain ⟨u, rfl⟩ : ∃ u', u = 46 :: u' := by
        cases u with
        | nil => cases point
        | cons d u =>
          cases point
          exact ⟨u, rfl⟩
      have split := List.takeWhile_append_dropWhile (p := isDigit) (l := u)
      have all : ∀ c ∈ u.takeWhile isDigit, isDigit c := fun c member => List.mem_takeWhile_imp member
      have after := not_digit_dropWhile u
      rw [afterInt, ← split, matchFraction_dot all after] at done
      simp only at done
      split_ifs at done with last
      have some_ : u.takeWhile isDigit ≠ [] := by
        intro empty
        rw [empty] at last
        exact last List.getLast?_concat
      have fraction : ∀ f ∈ some (u.takeWhile isDigit), Digits f := by
        rintro f ⟨rfl⟩
        exact ⟨some_, all⟩
      rw [← List.cons_append, List.drop_left] at done
      obtain ⟨e, r, valid, behind, ends, rfl⟩ :=
        (withExponent_eq_some_iff (fraction_plain digits fraction) after).mp done
      refine ⟨some (u.takeWhile isDigit), e, r, fraction, valid, ?_, ends, ?_⟩
      · rw [← behind]
        exact congrArg (46 :: ·) split.symm
      · exact List.append_assoc ..
    · rw [afterInt, matchFraction_none point stop] at done
      simp only [List.append_nil] at done
      rw [if_neg (getLast?_digits digits)] at done
      rw [List.length_nil, List.drop_zero, withExponent_eq_some_iff
        (fun c member letter => digit_not_mark (digits c member) (exponent_isMark letter)) stop] at done
      obtain ⟨e, r, valid, behind, ends, rfl⟩ := done
      exact ⟨none, e, r, by simp, valid, behind, ends, rfl⟩
  · rintro ⟨frac, e, r, fraction, valid, rfl, ends, rfl⟩
    have behind := exponent_head valid ends
    have plain := fraction_plain digits fraction
    cases frac with
    | none =>
      have point : (e.text ++ r).head? ≠ some 46 := fun head => (behind 46 head).2 rfl
      have same : fractionText none ++ (e.text ++ r) = e.text ++ r := rfl
      rw [same, afterInt, matchFraction_none point fun c head => (behind c head).1]
      simp only [List.append_nil]
      rw [if_neg (getLast?_digits digits), List.length_nil, List.drop_zero, withExponent_eq_some_iff
        (fun c member letter => digit_not_mark (digits c member) (exponent_isMark letter))
        fun c head => (behind c head).1]
      exact ⟨e, r, valid, rfl, ends, rfl⟩
    | some f =>
      have valid' := fraction f rfl
      have same : fractionText (some f) ++ (e.text ++ r) = 46 :: (f ++ (e.text ++ r)) := rfl
      rw [same, afterInt, matchFraction_dot valid'.2 fun c head => (behind c head).1]
      have last : (pre ++ 46 :: f).getLast? ≠ some 46 := by
        obtain ⟨c, f, rfl⟩ := List.exists_cons_of_ne_nil valid'.1
        rw [List.append_cons, List.getLast?_append_of_ne_nil _ (List.cons_ne_nil c f)]
        exact getLast?_digits valid'.2
      rw [if_neg last, ← List.cons_append, List.drop_left]
      refine (withExponent_eq_some_iff plain fun c head => (behind c head).1).mpr ⟨e, r, valid, rfl, ends, ?_⟩
      exact (List.append_assoc ..).symm

end Fractions

section Decimals

variable {frac : Option Text} {e : Exp} {int : Text}

theorem exponentOf_eq (valid : e.Valid) : exponentOf e.text = (Numeral.mk int frac e).exponent := by
  cases e with
  | none => rfl
  | some x =>
    obtain ⟨letter, sign, digits⟩ := x
    obtain ⟨-, signs, digits_valid⟩ := valid _ rfl
    change exponentOf (letter :: (sign.toList ++ digits)) =
      if sign = some 45 then -(natOf digits : ℤ) else natOf digits
    cases sign with
    | some c =>
      rcases signs c rfl with rfl | rfl
      · rfl
      · rfl
    | none =>
      obtain ⟨d, digits, rfl⟩ := List.exists_cons_of_ne_nil digits_valid.1
      have digit := digits_valid.2 d (List.mem_cons_self ..)
      have other (c : UInt8) (sign : ¬isDigit c) : ¬(d :: digits).head? = some c := by
        rintro ⟨rfl⟩
        exact sign digit
      rw [exponentOf, Option.toList_none, List.nil_append, if_neg (other 45 (by decide)),
        if_neg (other 43 (by decide)), if_neg (by simp)]

theorem decimal_eq (digits : ∀ c ∈ int, isDigit c) (fraction : ∀ f ∈ frac, Digits f) (valid : e.Valid) :
    decimal (int ++ (fractionText frac ++ e.text)) = (Numeral.mk int frac e).value := by
  have ends : Ends [] := by simp [Ends]
  have behind := exponent_head valid ends
  rw [List.append_nil] at behind
  have stop : ∀ c ∈ (fractionText frac ++ e.text).head?, ¬isDigit c := by
    cases frac with
    | none => exact fun c head => (behind c head).1
    | some f =>
      rintro c ⟨rfl⟩
      decide
  have point : (fractionText frac ++ e.text).head? = some 46 ↔ frac.isSome := by
    cases frac with
    | none => exact iff_of_false (fun head => (behind 46 head).2 rfl) Bool.false_ne_true
    | some f => exact iff_of_true rfl rfl
  have parts : (if (fractionText frac ++ e.text).head? = some 46 then
        (fractionText frac ++ e.text).tail.takeWhile isDigit else []) = frac.getD [] ∧
      (if (fractionText frac ++ e.text).head? = some 46 then (fractionText frac ++ e.text).tail.dropWhile isDigit
        else fractionText frac ++ e.text) = e.text := by
    cases frac with
    | none => exact ⟨if_neg (point.not.mpr Bool.false_ne_true), if_neg (point.not.mpr Bool.false_ne_true)⟩
    | some f =>
      obtain ⟨taken, dropped⟩ := takeWhile_digits (fraction f rfl).2 fun c head => (behind c head).1
      exact ⟨(if_pos rfl).trans taken, (if_pos rfl).trans dropped⟩
  obtain ⟨taken, dropped⟩ := takeWhile_digits digits stop
  rw [decimal]
  simp only [taken, dropped, parts.1, parts.2]
  rw [exponentOf_eq valid]
  rfl

theorem natOf_zero (digits : Text) : natOf (48 :: digits) = natOf digits := rfl

end Decimals

section Numerals

variable {int u r : Text} {v : Value ν} {mns : Bool}

/-- The numerals with or without a sign in front, which is not part of the text here. -/
def Numerals (num : Numbers ν) (mns : Bool) (v : Value ν) (t : Text) : Prop :=
  ∃ n : Numeral, n.Valid ∧ t = n.text ∧ v = signed num mns (num.round n.value)

/-- The digits in front of a numeral are all there are. -/
theorem numeral_split {n : Numeral} (valid : n.Valid) (digits : ∀ c ∈ int, isDigit c)
    (stop : ∀ c ∈ u.head?, ¬isDigit c) (ends : Ends r) (same : int ++ u = n.text ++ r) :
    int = n.int ∧ u = fractionText n.frac ++ (Exp.text n.exp ++ r) := by
  have behind := exponent_head (e := n.exp) valid.exp ends
  have stop' : ∀ c ∈ (fractionText n.frac ++ (Exp.text n.exp ++ r)).head?, ¬isDigit c := by
    cases n.frac with
    | none => exact fun c head => (behind c head).1
    | some f =>
      rintro c ⟨rfl⟩
      decide
  have front : ∀ c ∈ n.int, isDigit c := by
    rcases valid.int with zero | ⟨many, -⟩
    · rw [zero]
      simp [isDigit]
    · exact many.2
  have text : n.text ++ r = n.int ++ (fractionText n.frac ++ (Exp.text n.exp ++ r)) := by
    simp only [Numeral.text, List.append_assoc]
    rfl
  rw [text] at same
  constructor
  · rw [← (takeWhile_digits digits stop).1, same, (takeWhile_digits front stop').1]
  · rw [← (takeWhile_digits digits stop).2, same, (takeWhile_digits front stop').2]

/-- What begins with all of its digits begins with a numeral if the functions for numbers find one. -/
theorem front_numerals_iff (valid : int = [48] ∨ Digits int ∧ int.head? ≠ some 48)
    (stop : ∀ c ∈ u.head?, ¬isDigit c) :
    Front (Numerals num mns) (int ++ u) v r ↔ ∃ part, afterInt int u = some part ∧ int ++ u = part ++ r ∧
      v = signed num mns (tonumber num part) := by
  have digits : ∀ c ∈ int, isDigit c := by
    rcases valid with rfl | ⟨many, -⟩
    · simp [isDigit]
    · exact many.2
  constructor
  · rintro ⟨_, same, ⟨n, numeral, rfl, rfl⟩, ends⟩
    obtain ⟨front, behind⟩ := numeral_split numeral digits stop (ends ⟨_, rfl⟩) same
    refine ⟨n.text, ?_, same, ?_⟩
    · refine (afterInt_eq_some_iff digits stop).mpr ⟨n.frac, n.exp, r, numeral.frac, numeral.exp, behind, ?_, ?_⟩
      · exact ends ⟨_, rfl⟩
      · rw [front]
        rfl
    · have digits' : ∀ c ∈ n.int, isDigit c := front ▸ digits
      have value := decimal_eq digits' numeral.frac (e := n.exp) numeral.exp
      rw [tonumber]
      exact congrArg (fun q => signed num mns (num.round q)) value.symm
  · rintro ⟨part, found, same, rfl⟩
    obtain ⟨frac, e, r', fraction, exponent, rfl, ends, rfl⟩ := (afterInt_eq_some_iff digits stop).mp found
    have left : r = r' := by
      rw [← List.append_assoc (fractionText frac), ← List.append_assoc] at same
      exact (List.append_cancel_left same).symm
    subst left
    refine ⟨_, same, ⟨⟨int, frac, e⟩, ⟨valid, fraction, exponent⟩, rfl, ?_⟩, fun _ => ends⟩
    rw [tonumber, decimal_eq digits fraction exponent]

variable (num mns) in
/-- The numeral that is found is the only one. -/
theorem numeral_found {part : Text} (valid : int = [48] ∨ Digits int ∧ int.head? ≠ some 48)
    (stop : ∀ c ∈ u.head?, ¬isDigit c) (found : afterInt int u = some part) : ∃ r, int ++ u = part ++ r ∧
      Front (Numerals num mns) (int ++ u) (signed num mns (tonumber num part)) r ∧
      ∀ v' r', Front (Numerals num mns) (int ++ u) v' r' → v' = signed num mns (tonumber num part) ∧ r' = r := by
  have digits : ∀ c ∈ int, isDigit c := by
    rcases valid with rfl | ⟨many, -⟩
    · simp [isDigit]
    · exact many.2
  obtain ⟨frac, e, r, -, -, behind, -, text⟩ := (afterInt_eq_some_iff digits stop).mp found
  have same : int ++ u = part ++ r := by simp only [behind, text, List.append_assoc]
  refine ⟨r, same, (front_numerals_iff valid stop).mpr ⟨part, found, same, rfl⟩, fun v' r' other => ?_⟩
  obtain ⟨part', found', same', rfl⟩ := (front_numerals_iff valid stop).mp other
  obtain rfl : part = part' := Option.some.inj (found.symm.trans found')
  exact ⟨rfl, List.append_cancel_left (same'.symm.trans same)⟩

theorem numeral_missing (valid : int = [48] ∨ Digits int ∧ int.head? ≠ some 48)
    (stop : ∀ c ∈ u.head?, ¬isDigit c) (none_ : afterInt int u = none) :
    ¬Front (Numerals num mns) (int ++ u) v r := by
  intro front
  obtain ⟨part, found, -⟩ := (front_numerals_iff valid stop).mp front
  exact Option.some_ne_none part (found.symm.trans none_)

/-- A zero in front of other digits is no numeral. -/
theorem not_front_zero {d : UInt8} (digit : isDigit d) : ¬Front (Numerals num mns) (48 :: d :: u) v r := by
  rintro ⟨_, same, ⟨n, numeral, rfl, rfl⟩, ends⟩
  have digits : ∀ c ∈ 48 :: d :: u.takeWhile isDigit, isDigit c := by
    intro c member
    rcases List.mem_cons.mp member with rfl | member
    · rfl
    · rcases List.mem_cons.mp member with rfl | member
      · exact digit
      · exact List.mem_takeWhile_imp member
  have split : (48 :: d :: u.takeWhile isDigit) ++ u.dropWhile isDigit = n.text ++ r := by
    rw [← same, List.cons_append, List.cons_append, List.takeWhile_append_dropWhile]
  obtain ⟨front, -⟩ := numeral_split numeral digits (not_digit_dropWhile u) (ends ⟨_, rfl⟩) split
  rcases numeral.int with zero | ⟨-, zero⟩
  · rw [zero] at front
    cases front
  · rw [← front] at zero
    exact zero rfl

theorem exponentPart_ensures {pre : Text} {post : Text → State → Prop} {exit : Error → State → Prop}
    (left : rest json s.pos = pre ++ u) (found : ∀ part, withExponent pre u = some part → post part s)
    (none_ : withExponent pre u = none → exit (.parse s.pos "invalid number") s) :
    Ensures (exponentPart json (u.head?.filter isMark) pre) s post exit := by
  rw [Ensures, exponentPart_eq left]
  cases done : withExponent pre u with
  | some part => exact found part done
  | none => exact none_ done

theorem matchFraction_append (u : Text) : (matchFraction u).1 ++ u.drop (matchFraction u).1.length = u := by
  refine (List.prefix_iff_eq_append).mp ?_
  rw [matchFraction]
  split_ifs with point
  · cases u with
    | nil => cases point
    | cons c u =>
      cases point
      exact List.cons_prefix_cons.mpr ⟨rfl, List.takeWhile_prefix _⟩
  · exact List.takeWhile_prefix _

theorem matchExponent_cons {c : UInt8} (plain : ¬isExponent c) (u : Text) :
    matchExponent (c :: u) = (matchExponent u).map fun found => (c :: found.1, found.2) := by
  have other : (fun c => !isExponent c) c = true := by simp [plain]
  rw [matchExponent, matchExponent, List.dropWhile_cons_of_pos (p := fun c => !isExponent c) other,
    List.takeWhile_cons_of_pos (p := fun c => !isExponent c) other]
  cases u.dropWhile fun c => !isExponent c with
  | nil => rfl
  | cons e u =>
    simp only
    split_ifs <;> rfl

theorem withExponent_cons {c : UInt8} (plain : ¬isExponent c) (pre u : Text) :
    withExponent (c :: pre) u = (withExponent pre u).map (c :: ·) := by
  rw [withExponent, withExponent]
  cases u.head?.filter isMark with
  | none => rfl
  | some d =>
    simp only
    rw [List.cons_append, matchExponent_cons plain]
    split_ifs
    · rcases matchExponent (pre ++ u) with _ | ⟨part, _ | mark⟩ <;> rfl
    · rfl

variable (num mns)

/-- `f_num`, behind the first digit. -/
theorem reads_f_num {text : Text} {d : UInt8} (clean : Clean s) (position : At json (s.pos - 1) text)
    (first : text.head? = some d) (range : 49 ≤ d ∧ d ≤ 57) :
    Reads json (f_num num json mns) s (Front (Numerals num mns) text) := by
  have split := List.takeWhile_append_dropWhile (p := isDigit) (l := text)
  have valid : Digits (text.takeWhile isDigit) ∧ (text.takeWhile isDigit).head? ≠ some 48 := by
    obtain ⟨text, rfl⟩ : ∃ text', text = d :: text' := by
      cases text with
      | nil => cases first
      | cons c text =>
        cases first
        exact ⟨text, rfl⟩
    have digit : isDigit d := by
      simp only [isDigit, Bool.and_eq_true, decide_eq_true_eq]
      exact ⟨UInt8.le_trans (by decide) range.1, range.2⟩
    refine ⟨⟨?_, fun c member => List.mem_takeWhile_imp member⟩, ?_⟩
    · rw [List.takeWhile_cons_of_pos digit]
      exact List.cons_ne_nil d _
    · rw [List.takeWhile_cons_of_pos digit]
      rintro ⟨rfl⟩
      exact absurd range.1 (by decide)
  have stop := not_digit_dropWhile text
  obtain ⟨part, u, matched, whole, result⟩ : ∃ part u, matchNumber text = (part, u.head?.filter isMark) ∧
      text = part ++ u ∧ afterInt (text.takeWhile isDigit) (text.dropWhile isDigit) =
        if part.getLast? = some 46 then none else withExponent part u := by
    have whole : text = text.takeWhile isDigit ++ (matchFraction (text.dropWhile isDigit)).1 ++
        (text.dropWhile isDigit).drop (matchFraction (text.dropWhile isDigit)).1.length := by
      rw [List.append_assoc, matchFraction_append, split]
    refine ⟨_, _, ?_, whole, rfl⟩
    rw [matchNumber, markAfter]
    conv_lhs =>
      arg 2; arg 2; arg 1; arg 2
      rw [whole]
    rw [List.drop_left]
  have clean' : Clean { s with pos := s.pos - 1 } := ⟨clean.prev, clean.keycache⟩
  simp only [Reads, f_num, ensures_bind, ensures_modify, ensures_get, position.rest, matched]
  refine (ensures_ite _ _ _).mpr ⟨fun point => ?_, fun point => ?_⟩
  · refine ⟨clean'.leaves _ _, fun v r front => ?_⟩
    rw [if_pos point] at result
    rw [← split] at front
    exact numeral_missing (.inr valid) stop result front
  · rw [if_neg point] at result
    refine (ensures_bind _ _).mpr (exponentPart_ensures (position.rest.trans whole) ?_ ?_)
    · intro part' done
      obtain ⟨r, same, front, only⟩ := numeral_found num mns (.inr valid) stop (result.trans done)
      rw [split] at same front only
      rw [same] at position
      exact ⟨⟨clean.prev, clean.keycache⟩, rfl, r, position.append, front, only⟩
    · intro none_
      refine ⟨clean'.leaves _ _, fun v r front => ?_⟩
      rw [← split] at front
      exact numeral_missing (.inr valid) stop (result.trans none_) front

/-- A zero with nothing behind it but an exponent. -/
theorem tonumber_zero {part : Text} (stop : ∀ c ∈ u.head?, ¬isDigit c) (point : (matchFraction u).1 = [])
    (found : afterInt [48] u = some part) : tonumber num part = num.round 0 := by
  obtain ⟨frac, e, r, fraction, exponent, behind, -, rfl⟩ :=
    (afterInt_eq_some_iff (by simp [isDigit]) stop).mp found
  have missing : frac = none := by
    cases frac with
    | none => rfl
    | some f =>
      have head : u.head? = some 46 := by
        rw [behind]
        rfl
      rw [matchFraction, if_pos head] at point
      cases point
  subst missing
  rw [tonumber, decimal_eq (by simp [isDigit]) fraction exponent]
  simp [Numeral.value, natOf]

theorem tonumber_cons (part : Text) : tonumber num (48 :: part) = tonumber num part := by
  have zero : isDigit 48 := rfl
  rw [tonumber, tonumber, decimal, decimal, List.takeWhile_cons_of_pos zero, List.dropWhile_cons_of_pos zero]
  simp only [List.cons_append, natOf_zero]

/-- What follows a zero is a point, or there is no fraction. -/
theorem matchFraction_head {c : UInt8} {part : Text} (stop : ∀ c ∈ u.head?, ¬isDigit c)
    (found : (matchFraction u).1 = c :: part) : c = 46 := by
  by_cases point : u.head? = some 46
  · rw [matchFraction, if_pos point] at found
    exact (List.cons.inj found).1.symm
  · rw [matchFraction_none point stop] at found
    cases found

theorem afterInt_zero {part : Text} (matched : (matchFraction u).1 = part) :
    afterInt [48] u = if (48 :: part).getLast? = some 46 then none
      else (withExponent part (u.drop part.length)).map (48 :: ·) := by
  rw [afterInt, matched, List.singleton_append, withExponent_cons (by decide)]

/-- `f_zro`, behind the zero. -/
theorem reads_f_zro {text : Text} (clean : Clean s) (position : At json s.pos text) :
    Reads json (f_zro num json mns) s (Front (Numerals num mns) (48 :: text)) := by
  obtain ⟨part, matched⟩ : ∃ part, (matchFraction text).1 = part := ⟨_, rfl⟩
  have mark : (matchFraction text).2 = (text.drop part.length).head?.filter isMark := by
    rw [← matched]
    rfl
  have whole : text = part ++ text.drop part.length := by
    rw [← matched, matchFraction_append]
  have left : rest json s.pos = part ++ text.drop part.length := position.rest.trans whole
  have fails (none_ : ∀ v r, ¬Front (Numerals num mns) (48 :: text) v r) : Leaves (.parse s.pos "invalid number") s ∧
      ∀ v r, ¬Front (Numerals num mns) (48 :: text) v r :=
    ⟨clean.leaves _ _, none_⟩
  simp only [Reads, f_zro, ensures_bind, ensures_get, position.rest, matched, mark]
  by_cases leading : ∃ d ∈ text.head?, isDigit d
  · obtain ⟨d, head, digit⟩ := leading
    obtain ⟨text, rfl⟩ : ∃ text', text = d :: text' := by
      cases text with
      | nil => cases head
      | cons c text =>
        cases head
        exact ⟨text, rfl⟩
    have point : (d :: text).head? ≠ some 46 := by
      rintro ⟨rfl⟩
      exact absurd digit (by decide)
    rw [matchFraction, if_neg point, List.takeWhile_cons_of_pos digit] at matched
    subst matched
    rw [if_neg (List.cons_ne_nil d _), if_pos (.inl point)]
    exact fails fun v r => not_front_zero digit
  · have stop : ∀ c ∈ text.head?, ¬isDigit c := fun c head digit => leading ⟨c, head, digit⟩
    have result := afterInt_zero matched
    have found {part' : Text} (done : afterInt [48] text = some (48 :: part')) {c : ν}
        (value : tonumber num (48 :: part') = c) : ∃ r, text = part' ++ r ∧
          Front (Numerals num mns) (48 :: text) (signed num mns c) r ∧
          ∀ v' r', Front (Numerals num mns) (48 :: text) v' r' → v' = signed num mns c ∧ r' = r := by
      obtain ⟨r, same, front, only⟩ := numeral_found num mns (.inl rfl) stop done
      rw [value] at front only
      exact ⟨r, (List.cons.inj same).2, front, only⟩
    refine (ensures_ite _ _ _).mpr ⟨fun empty => ?_, fun some_ => ?_⟩
    · subst empty
      rw [if_neg (by decide)] at result
      cases behind : (text.drop [].length).head?.filter isMark with
      | none =>
        rw [withExponent, behind] at result
        obtain ⟨r, same, front, only⟩ := found result (tonumber_zero num stop matched result)
        rw [List.nil_append] at same
        subst same
        exact ⟨clean, rfl, text, position, front, only⟩
      | some c =>
        simp only
        rw [← behind]
        refine (ensures_bind _ _).mpr (exponentPart_ensures left ?_ ?_)
        · intro part' done
          rw [done] at result
          obtain ⟨r, same, front, only⟩ := found result (tonumber_zero num stop matched result)
          rw [same] at position
          exact ⟨⟨clean.prev, clean.keycache⟩, rfl, r, position.append, front, only⟩
        · intro none_
          rw [none_] at result
          exact fails fun v r => numeral_missing (.inl rfl) stop result
    · obtain ⟨c, part, rfl⟩ := List.exists_cons_of_ne_nil some_
      obtain rfl := matchFraction_head stop matched
      rw [List.getLast?_cons_cons] at result
      refine (ensures_ite _ _ _).mpr ⟨fun wrong => ?_, fun fine => ?_⟩
      · rw [if_pos (wrong.resolve_left fun head => head rfl)] at result
        exact fails fun v r => numeral_missing (.inl rfl) stop result
      · rw [if_neg fun last => fine (.inr last)] at result
        refine (ensures_bind _ _).mpr (exponentPart_ensures left ?_ ?_)
        · intro part' done
          rw [done] at result
          obtain ⟨r, same, front, only⟩ := found result (tonumber_cons num part')
          rw [same] at position
          exact ⟨⟨clean.prev, clean.keycache⟩, rfl, r, position.append, front, only⟩
        · intro none_
          rw [none_] at result
          exact fails fun v r => numeral_missing (.inl rfl) stop result

/-- A numeral begins with a digit. -/
theorem numeral_head {n : Numeral} (valid : n.Valid) : ∃ c t, n.text = c :: t ∧ isDigit c := by
  rcases valid.int with zero | ⟨many, -⟩
  · refine ⟨48, n.fracText ++ n.expText, ?_, rfl⟩
    rw [Numeral.text, zero]
    rfl
  · obtain ⟨d, digits, same⟩ := List.exists_cons_of_ne_nil many.1
    refine ⟨d, digits ++ (n.fracText ++ n.expText), ?_, many.2 d (by simp [same])⟩
    rw [Numeral.text, same]
    rfl

theorem front_numerals_head {text r : Text} {v : Value ν} (front : Front (Numerals num mns) text v r) :
    ∃ c ∈ text.head?, isDigit c := by
  obtain ⟨_, rfl, ⟨n, valid, rfl, -⟩, -⟩ := front
  obtain ⟨c, t, text, digit⟩ := numeral_head valid
  exact ⟨c, by rw [text]; rfl, digit⟩

/-- `f_mns`, behind the sign. -/
theorem reads_f_mns {text : Text} (clean : Clean s) (position : At json s.pos text) :
    Reads json (f_mns num json) s (Front (Numerals num true) text) := by
  simp only [Reads, f_mns, ensures_bind, ensures_get, position.byte]
  cases text with
  | nil =>
    refine ⟨clean.leaves _ _, fun v r front => ?_⟩
    obtain ⟨c, none_, -⟩ := front_numerals_head num true front
    cases none_
  | cons c text =>
    have clean' : Clean { s with pos := s.pos + 1 } := ⟨clean.prev, clean.keycache⟩
    have fails (other : ¬isDigit c) : Leaves (.parse (s.pos + 1) "invalid number") { s with pos := s.pos + 1 } ∧
        ∀ v r, ¬Front (Numerals num true) (c :: text) v r := by
      refine ⟨clean'.leaves _ _, fun v r front => ?_⟩
      obtain ⟨d, head, digit⟩ := front_numerals_head num true front
      cases head
      exact other digit
    have digits : isDigit c ↔ 48 ≤ c ∧ c ≤ 57 := by simp [isDigit]
    rw [digits] at fails
    refine (ensures_bind _ _).mpr ?_
    refine (ensures_ite _ _ _).mpr ⟨fun more => (ensures_ite _ _ _).mpr ⟨fun less => ?_, fun notLess => ?_⟩,
      fun notMore => (ensures_ite _ _ _).mpr ⟨fun zero => ?_, fun less => ?_⟩⟩
    · have whole : At json (s.pos + 1 - 1) (c :: text) := position
      exact reads_f_num num true clean' whole rfl (by grind)
    · exact fails (by grind)
    · obtain rfl : c = 48 := by grind
      exact reads_f_zro num true clean' position.cons
    · exact fails (by grind)

end Numerals

section Literals

variable {tail text : Text} {v : Value ν}

/-- A literal, behind its first letter. -/
theorem reads_literal (c : UInt8) (plain : ¬∃ n, v = .number n) (clean : Clean s) (position : At json s.pos text) :
    Reads json (literal json tail v) s (Front (fun w t => w = v ∧ t = c :: tail) (c :: text)) := by
  simp only [Reads, literal, ensures_bind, ensures_get, position.rest]
  refine (ensures_ite _ _ _).mpr ⟨fun same => ?_, fun other => ?_⟩
  · have split : text = tail ++ text.drop tail.length := by
      conv_lhs => rw [← List.take_append_drop tail.length text, same]
    rw [split] at position
    refine (ensures_bind _ _).mpr ⟨⟨clean.prev, clean.keycache⟩, rfl, _, position.append, ?_, ?_⟩
    · exact ⟨c :: tail, congrArg (c :: ·) split, ⟨rfl, rfl⟩, fun number => absurd number plain⟩
    · rintro _ r ⟨_, front, ⟨rfl, rfl⟩, -⟩
      refine ⟨rfl, ?_⟩
      rw [(List.cons.inj front).2]
      exact List.drop_left.symm
  · refine ⟨clean.leaves _ _, ?_⟩
    rintro _ r ⟨_, front, ⟨rfl, rfl⟩, -⟩
    refine other ?_
    rw [(List.cons.inj front).2]
    exact List.take_left

end Literals

end OmniaJit.Vendor.LunaJson
