import OmniaJit.Vendor.JsonReader

/-! # Strings of the decoder

The quote that ends a string is the first one with an even number of backslashes in front of it. What is between
the quotes is replaced from left to right, and the half of a surrogate pair that is waiting is the only thing that
goes from one replacement to the next.
-/

namespace OmniaJit.Vendor.LunaJson

open OmniaJit.Data OmniaJit.Data.Json OmniaJit.Machine OmniaJit.Machine.Program

variable {json : Json} {s : State}

section Characters

theorem forall_byte {P : UInt8 → Prop} (all : ∀ n < 256, P (UInt8.ofNat n)) (c : UInt8) : P c := by
  have holds := all c.toNat c.toNat_lt
  rwa [UInt8.ofNat_toNat] at holds

theorem digitOf_eq (c : UInt8) : digitOf c = hex c :=
  forall_byte (P := fun c => digitOf c = hex c) (by decide +kernel) c

theorem f_str_escapetbl_eq (c : UInt8) : f_str_escapetbl c = escape c :=
  forall_byte (P := fun c => f_str_escapetbl c = escape c) (by decide +kernel) c

theorem ucodeOf_eq (a b c d : UInt8) : ucodeOf a b c d = codeUnit a b c d := by
  simp only [ucodeOf, codeUnit, digitOf_eq]

theorem hex_lt {c : UInt8} {n : ℕ} (digit : hex c = some n) : n < 16 := by
  have all := forall_byte (P := fun c => ∀ n ∈ hex c, n < 16) (by decide +kernel)
  exact all c n digit

theorem codeUnit_lt {a b c d : UInt8} {u : ℕ} (unit : codeUnit a b c d = some u) : u < 0x10000 := by
  simp only [codeUnit, bind, Option.bind_eq_some_iff] at unit
  obtain ⟨n1, h1, n2, h2, n3, h3, n4, h4, sum⟩ := unit
  have b1 := hex_lt h1
  have b2 := hex_lt h2
  have b3 := hex_lt h3
  have b4 := hex_lt h4
  cases sum
  omega

/-- A digit is neither a quote nor a backslash nor a control character. -/
theorem hex_plain {c : UInt8} {n : ℕ} (digit : hex c = some n) : 32 ≤ c ∧ c ≠ 34 ∧ c ≠ 92 := by
  have all := forall_byte (P := fun c => (hex c).isSome → 32 ≤ c ∧ c ≠ 34 ∧ c ≠ 92) (by decide +kernel)
  exact all c (by rw [digit]; rfl)

theorem toNat_ofNat {u : ℕ} (valid : u.isValidChar) : (Char.ofNat u).val.toNat = u := by
  rw [Char.ofNat, dif_pos valid]
  rfl

theorem utf8_eq {u : ℕ} (valid : u.isValidChar) : utf8 u =
    if u < 0x80 then [u.toUInt8]
    else if u < 0x800 then [(u / 0x40 + 0xC0).toUInt8, (u % 0x40 + 0x80).toUInt8]
    else if u < 0x10000 then
      [(u / 0x1000 + 0xE0).toUInt8, (u % 0x1000 / 0x40 + 0x80).toUInt8, (u % 0x40 + 0x80).toUInt8]
    else [(u / 0x40000 + 0xF0).toUInt8, (u % 0x40000 / 0x1000 + 0x80).toUInt8,
      (u % 0x1000 / 0x40 + 0x80).toUInt8, (u % 0x40 + 0x80).toUInt8] := by
  have bound : u < 0x110000 := by
    rcases valid with low | ⟨-, high⟩
    · omega
    · exact high
  rw [utf8, String.utf8EncodeChar, toNat_ofNat valid]
  by_cases one : u < 0x80
  · rw [if_pos (by omega), if_pos one]
  rw [if_neg (by omega), if_neg one]
  by_cases two : u < 0x800
  · have low : u / 64 % 32 = u / 64 := by omega
    rw [if_pos (by omega), if_pos two, low]
  rw [if_neg (by omega), if_neg two]
  by_cases three : u < 0x10000
  · have low : u / 4096 % 16 = u / 4096 := by omega
    have middle : u % 4096 / 64 = u / 64 % 64 := by omega
    rw [if_pos (by omega), if_pos three, low, middle]
  have low : u / 262144 % 8 = u / 262144 := by omega
  have second : u % 262144 / 4096 = u / 4096 % 64 := by omega
  have third : u % 4096 / 64 = u / 64 % 64 := by omega
  rw [if_neg (by omega), if_neg three, low, second, third]

/-- The code point of a pair has four bytes. -/
theorem pair_range {first second : ℕ} (isFirst : IsFirst first) (isSecond : IsSecond second) :
    0x10000 ≤ pair first second ∧ (pair first second).isValidChar := by
  obtain ⟨first_least, first_most⟩ := isFirst
  obtain ⟨second_least, second_most⟩ := isSecond
  have least : 0x10000 ≤ pair first second := Nat.le_trans (Nat.le_add_right _ _) (Nat.le_add_right _ _)
  have most : pair first second < 0x110000 := by
    unfold pair
    omega
  exact ⟨least, .inr ⟨by omega, most⟩⟩

end Characters

section Quotes

/-- Every quote is behind a backslash that is not itself behind one, and there is no such backslash at the end. -/
inductive Closed : Text → Prop
  | nil : Closed []
  | escaped {str : Text} (ch : UInt8) (closed : Closed str) : Closed (92 :: ch :: str)
  | plain {c : UInt8} {str : Text} (backslash : c ≠ 92) (quote : c ≠ 34) (closed : Closed str) : Closed (c :: str)

/-- There is a backslash at the end which is not itself behind one. -/
def dangling : Text → Bool
  | [] => false
  | [c] => c = 92
  | c :: d :: str => if c = 92 then dangling str else dangling (d :: str)

variable {body : Text}

/-- Characters are looked at from the front and from the end. -/
theorem dangling_concat (body : Text) (c : UInt8) : dangling (body ++ [c]) = (decide (c = 92) && !dangling body) := by
  induction body using dangling.induct with
  | case1 => simp [dangling]
  | case2 d =>
    by_cases backslash : d = 92 <;> simp [dangling, backslash]
  | case3 e str ih => simp [dangling, ih]
  | case4 d e str other ih => simpa [dangling, other] using ih

theorem Closed.not_dangling (closed : Closed body) : ¬dangling body := by
  induction closed with
  | nil => simp [dangling]
  | escaped ch closed ih => simpa [dangling] using ih
  | @plain c str backslash quote closed ih =>
    cases str with
    | nil => simpa [dangling] using backslash
    | cons d str => simpa [dangling, backslash] using ih

/-- In front of a quote that is not the end there is a backslash. -/
theorem Closed.dangling_front (closed : Closed body) {front back : Text} (split : body = front ++ 34 :: back) :
    dangling front := by
  induction closed generalizing front with
  | nil => exact absurd split (by simp)
  | @escaped str ch closed ih =>
    match front with
    | [] => cases split
    | [c] =>
      cases split
      rfl
    | c :: d :: front =>
      obtain ⟨rfl, inner⟩ := List.cons.inj split
      obtain ⟨-, inner⟩ := List.cons.inj inner
      simpa [dangling] using ih inner
  | @plain c str backslash quote closed ih =>
    match front with
    | [] =>
      cases split
      exact absurd rfl quote
    | [d] =>
      have none_ : dangling [] := ih (List.cons.inj split).2
      exact absurd none_ (by simp [dangling])
    | d :: e :: front =>
      obtain ⟨rfl, inner⟩ := List.cons.inj split
      simpa [dangling, backslash] using ih inner

theorem closed_of_dangling (end_ : ¬dangling body)
    (quotes : ∀ front back, body = front ++ 34 :: back → dangling front) :
    Closed body := by
  induction body using dangling.induct with
  | case1 => exact .nil
  | case2 c =>
    refine .plain (by simpa [dangling] using end_) ?_ .nil
    rintro rfl
    exact absurd (quotes [] [] rfl) (by simp [dangling])
  | case3 d str ih =>
    refine .escaped d (ih (by simpa [dangling] using end_) fun front back split => ?_)
    have := quotes (92 :: d :: front) back (by rw [split]; rfl)
    simpa [dangling] using this
  | case4 c d str other ih =>
    refine .plain other ?_ (ih (by simpa [dangling, other] using end_) fun front back split => ?_)
    · rintro rfl
      exact absurd (quotes [] _ rfl) (by simp [dangling])
    · have := quotes (c :: front) back (by rw [split]; rfl)
      cases front with
      | nil => exact absurd this (by simpa [dangling] using other)
      | cons e front => simpa [dangling, other] using this

/-- Where a string ends is determined by what it begins with. -/
theorem Closed.unique {body' r r' : Text} (closed : Closed body) (closed' : Closed body')
    (same : body ++ 34 :: r = body' ++ 34 :: r') : body = body' ∧ r = r' := by
  rcases List.append_eq_append_iff.mp same with ⟨between, longer, tail⟩ | ⟨between, longer, tail⟩
  · cases between with
    | nil =>
      rw [List.append_nil] at longer
      exact ⟨longer.symm, (List.cons.inj tail).2⟩
    | cons c between =>
      cases tail
      exact absurd (closed'.dangling_front longer) closed.not_dangling
  · cases between with
    | nil =>
      rw [List.append_nil] at longer
      exact ⟨longer, (List.cons.inj tail).2.symm⟩
    | cons c between =>
      cases tail
      exact absurd (closed.dangling_front longer) closed'.not_dangling

/-- In front of every quote there is a backslash that is not itself behind one. -/
def Escaped (str : Text) : Prop := ∀ front back, str = front ++ 34 :: back → dangling front

theorem Escaped.append {str more : Text} (escaped : Escaped str) (plain : 34 ∉ more) : Escaped (str ++ more) := by
  intro front back split
  rcases List.append_eq_append_iff.mp split with ⟨between, -, tail⟩ | ⟨between, longer, tail⟩
  · exact absurd (tail ▸ by simp) plain
  · cases between with
    | nil =>
      cases tail
      exact absurd (List.mem_cons_self ..) plain
    | cons c between =>
      cases tail
      exact escaped front between longer

theorem Escaped.concat {str : Text} (escaped : Escaped str) (end_ : dangling str) : Escaped (str ++ [34]) := by
  intro front back split
  rcases List.append_eq_append_iff.mp split with ⟨between, longer, tail⟩ | ⟨between, longer, tail⟩
  · cases between with
    | nil =>
      rw [List.append_nil] at longer
      rwa [longer]
    | cons c between => exact absurd (List.cons.inj tail).2 (by simp)
  · cases between with
    | nil =>
      rw [List.append_nil] at longer
      rwa [← longer]
    | cons c between =>
      cases tail
      exact escaped front between longer

theorem byte2_snd (json : Json) (i : ℕ) : (byte2 json (i + 1)).2 = if i = 0 then none else json[i]? := by
  cases i with
  | zero => rw [byte2, if_pos rfl]
  | succ i => rw [byte2, if_neg (Nat.succ_ne_zero i)]

theorem skipPairs_other {i : ℕ} (other : (byte2 json i).2 ≠ some 92) : skipPairs json i = byte2 json i := by
  match i with
  | 0 => rfl
  | 1 => rfl
  | i + 2 =>
    rw [skipPairs, if_neg]
    intro pair
    exact other (congrArg Prod.snd pair)

theorem skipPairs_two (front : Text) (c d : UInt8) (tail : Text) :
    skipPairs (front ++ c :: d :: tail) (front.length + 2) =
      if c = 92 ∧ d = 92 then skipPairs (front ++ c :: d :: tail) front.length else (some c, some d) := by
  have pair : byte2 (front ++ c :: d :: tail) (front.length + 2) = (some c, some d) := by simp [byte2]
  rw [skipPairs, pair]
  simp only [Prod.mk.injEq, Option.some.injEq]

/-- With the quote in front of the string, it is decided whether the one at its end counts. -/
theorem skipPairs_dangling (front body tail : Text) :
    (skipPairs (front ++ 34 :: (body ++ tail)) (front.length + body.length + 1)).2 = some 92 ↔ dangling body := by
  induction size : body.length using Nat.strong_induction_on generalizing body tail with
  | _ size' ih =>
  subst size
  rcases List.eq_nil_or_concat' body with rfl | ⟨body, d, rfl⟩
  · have last : (byte2 (front ++ 34 :: ([] ++ tail)) (front.length + 1)).2 ≠ some 92 := by
      rw [byte2_snd]
      split_ifs <;> simp
    rw [List.length_nil, Nat.add_zero, skipPairs_other last]
    simpa [dangling] using last
  · have last :
        (byte2 (front ++ 34 :: (body ++ [d] ++ tail)) (front.length + (body ++ [d]).length + 1)).2 = some d := by
      rw [byte2_snd, if_neg (by simp)]
      simp
    rw [dangling_concat]
    by_cases backslash : d = 92
    · subst backslash
      rcases List.eq_nil_or_concat' body with rfl | ⟨body, c, rfl⟩
      · have two := skipPairs_two front 34 92 tail
        rw [if_neg (by decide)] at two
        exact iff_of_true (congrArg Prod.snd two) rfl
      · have two := skipPairs_two (front ++ 34 :: body) c 92 tail
        have same : front ++ 34 :: (body ++ [c] ++ [92] ++ tail) = front ++ 34 :: body ++ c :: 92 :: tail := by simp
        have position : front.length + (body ++ [c] ++ [92]).length + 1 = (front ++ 34 :: body).length + 2 := by
          simp only [List.length_append, List.length_cons, List.length_nil]
          omega
        rw [same, position, two, dangling_concat]
        by_cases backslash : c = 92
        · subst backslash
          have before := ih body.length (by simp) body (92 :: 92 :: tail) rfl
          have shorter : (front ++ 34 :: body).length = front.length + body.length + 1 := by
            simp only [List.length_append, List.length_cons]
            omega
          rw [if_pos ⟨rfl, rfl⟩, shorter, List.append_assoc, List.cons_append, before]
          simp
        · rw [if_neg fun pair => backslash pair.1]
          simp [backslash]
    · have other : some d ≠ some 92 := fun same => backslash (Option.some.inj same)
      rw [skipPairs_other (by rwa [last]), last]
      simp [backslash]

/-- `find` for a quote. -/
theorem At.quote {pos : ℕ} {r : Text} (position : At json pos r) :
    findQuote json pos = none ∧ 34 ∉ r ∨
      ∃ before after, findQuote json pos = some (pos + before.length) ∧ r = before ++ 34 :: after ∧ 34 ∉ before := by
  rw [findQuote, position.rest]
  by_cases member : 34 ∈ r
  · obtain ⟨before, after, rfl, plain⟩ := List.eq_append_cons_of_mem member
    refine .inr ⟨before, after, ?_, rfl, plain⟩
    have none_ : before.findIdx? (· = 34) = none := by
      refine List.findIdx?_eq_none_iff.mpr fun c member => decide_eq_false ?_
      rintro rfl
      exact plain member
    rw [List.findIdx?_append, none_, List.findIdx?_cons]
    simp
  · refine .inl ⟨?_, member⟩
    rw [List.findIdx?_eq_none_iff.mpr]
    · rfl
    · refine fun c found => decide_eq_false ?_
      rintro rfl
      exact member found

/-- The loop of `f_str`, when it has come to some place of the string. -/
theorem closingQuote_ensures {front text : Text} (split : json = front ++ 34 :: text) {k : ℕ} {seen ahead : Text}
    (place : text = seen ++ ahead) (escaped : Escaped seen) (room : ahead.length < k) :
    Ensures (closingQuote json k (front.length + 2 + seen.length)) s
      (fun quote s' => s' = s ∧ ∃ body r, text = body ++ 34 :: r ∧ Closed body ∧
        quote = front.length + 2 + body.length)
      (fun e s' => s' = s ∧ e = .parse s.pos "unterminated string" ∧
        ∀ body r, text = body ++ 34 :: r → ¬Closed body) := by
  induction k generalizing seen ahead with
  | zero => exact absurd room (Nat.not_lt_zero _)
  | succ k ih =>
    have position : At json (front.length + 2 + seen.length) ahead := by
      refine ⟨front ++ 34 :: seen, by simp [split, place], ?_⟩
      simp only [List.length_append, List.length_cons]
      omega
    rw [closingQuote]
    rcases position.quote with ⟨missing, plain⟩ | ⟨before, after, found, rfl, plain⟩
    · rw [missing]
      refine ⟨rfl, rfl, fun body r same closed => ?_⟩
      have quotes := escaped.append plain
      rw [← place] at quotes
      exact closed.not_dangling (quotes body r same)
    · rw [found]
      simp only
      have body_place : json = front ++ 34 :: (seen ++ before ++ 34 :: after) := by simp [split, place]
      have end_ := skipPairs_dangling front (seen ++ before) (34 :: after)
      have before_quote : front.length + 2 + seen.length + before.length - 1 =
          front.length + (seen ++ before).length + 1 := by
        rw [List.length_append]
        omega
      rw [← body_place, ← before_quote] at end_
      refine (ensures_ite _ _ _).mpr ⟨fun backslash => ?_, fun other => ?_⟩
      · have behind : front.length + 2 + seen.length + before.length + 1 =
            front.length + 2 + (seen ++ before ++ [34]).length := by
          simp only [List.length_append, List.length_singleton]
          omega
        have place' : text = seen ++ before ++ [34] ++ after := by simp [place]
        rw [behind]
        refine ih place' ((escaped.append plain).concat (end_.mp backslash)) ?_
        rw [List.length_append, List.length_cons] at room
        omega
      · refine ⟨rfl, seen ++ before, after, by simp [place], ?_, ?_⟩
        · exact closed_of_dangling (fun dangles => other (end_.mpr dangles)) (escaped.append plain)
        · rw [List.length_append]
          omega

end Quotes

section Pieces

variable {prev : ℕ} {str r : Text} {ps : List Piece}

/-- A character that stands for itself. -/
def Plain (c : UInt8) : Prop := 32 ≤ c ∧ c ≠ 34 ∧ c ≠ 92

theorem lex_cons {c : UInt8} (plain : Plain c) (r : Text) : lex (c :: r) = (lex r).map (.raw c :: ·) := by
  obtain ⟨printable, quote, backslash⟩ := plain
  have none_ : ¬(c < 32 ∨ c = 34 ∨ c = 92) := by
    rintro (control | other | other)
    · exact absurd printable (UInt8.not_le.mpr control)
    · exact quote other
    · exact backslash other
  rw [lex, if_neg none_]
  · cases lex r <;> rfl
  · rintro a b c' d s rfl
    exact absurd rfl backslash
  · rintro e s rfl
    exact absurd rfl backslash

theorem lex_append (plain : ∀ c ∈ str, Plain c) (r : Text) : lex (str ++ r) = (lex r).map (str.map .raw ++ ·) := by
  induction str with
  | nil => simp
  | cons c str ih =>
    rw [List.cons_append, lex_cons (plain c (List.mem_cons_self ..)),
      ih fun d member => plain d (List.mem_cons_of_mem _ member), Option.map_map]
    rfl

theorem assembled_append (prev : ℕ) (str : Text) (ps : List Piece) :
    assembled prev (str.map .raw ++ ps) = (assembled prev ps).map (str ++ ·) := by
  induction str with
  | nil => simp
  | cons c str ih =>
    rw [List.map_cons, List.cons_append, assembled, ih]
    cases assembled prev ps <;> rfl

theorem assembled_unit {u : ℕ} (first : ¬IsFirst u) (second : ¬IsSecond u) (ps : List Piece) :
    assembled prev (.unit u :: ps) = (assembled prev ps).map (utf8 u ++ ·) := by
  rw [assembled, if_neg first, if_neg second]
  cases assembled prev ps <;> rfl

theorem assembled_second {u : ℕ} (second : IsSecond u) (waiting : prev ≠ 0) (ps : List Piece) :
    assembled prev (.unit u :: ps) = (assembled 0 ps).map (utf8 (pair prev u) ++ ·) := by
  rw [assembled, if_neg fun first => Nat.not_lt.mpr second.1 first.2, if_pos second, if_neg waiting]
  cases assembled 0 ps <;> rfl

theorem assembled_first {u : ℕ} (first : IsFirst u) (ps : List Piece) :
    assembled prev (.unit u :: ps) = if prev = 0 ∧ plainNext ps = false then assembled u ps else none := by
  rw [assembled, if_pos first]

theorem assembled_escape (c : UInt8) (ps : List Piece) :
    assembled 0 (.escape c :: ps) = (assembled 0 ps).map (c :: ·) := by
  rw [assembled, if_pos rfl]
  cases assembled 0 ps <;> rfl

/-- Behind a backslash there is the digits of a code unit or a character that can be escaped. -/
theorem lex_unit (a b c d : UInt8) (r : Text) :
    lex (92 :: 117 :: a :: b :: c :: d :: r) = (codeUnit a b c d).bind fun u => (lex r).map (.unit u :: ·) := by
  rw [lex]
  cases codeUnit a b c d with
  | none => rfl
  | some u => cases lex r <;> rfl

theorem lex_escape {ch : UInt8} (other : ch ≠ 117) (r : Text) :
    lex (92 :: ch :: r) = (escape ch).bind fun c => (lex r).map (.escape c :: ·) := by
  rw [lex]
  · cases escape ch with
    | none => rfl
    | some c => cases lex r <;> rfl
  · intro a b c d s same
    exact absurd same other

theorem codeUnit_plain {a b c d : UInt8} {u : ℕ} (unit : codeUnit a b c d = some u) :
    ∀ x ∈ [a, b, c, d], Plain x := by
  simp only [codeUnit, bind, Option.bind_eq_some_iff] at unit
  obtain ⟨n1, h1, n2, h2, n3, h3, n4, h4, -⟩ := unit
  simp only [List.forall_mem_cons]
  exact ⟨hex_plain h1, hex_plain h2, hex_plain h3, hex_plain h4, by simp⟩

/-- Too few digits. -/
theorem lex_short (short : str.length < 4) (stop : ∀ c ∈ r.head?, c = 92) : lex (92 :: 117 :: (str ++ r)) = none := by
  by_cases few : (str ++ r).length < 4
  · rw [lex]
    · rfl
    · intro a b c d s _ same
      rw [same] at few
      simp only [List.length_cons] at few
      omega
  · obtain ⟨a, b, c, d, t, same⟩ : ∃ a b c d t, str ++ r = a :: b :: c :: d :: t := by
      match str ++ r, few with
      | a :: b :: c :: d :: t, _ => exact ⟨a, b, c, d, t, rfl⟩
      | [], few | [_], few | [_, _], few | [_, _, _], few => simp at few
    have member : 92 ∈ (str ++ r).take 4 := by
      cases r with
      | nil =>
        rw [List.append_nil] at few
        exact absurd short few
      | cons e r =>
        rw [stop e rfl, List.take_append, List.mem_append]
        refine .inr ?_
        obtain ⟨k, left⟩ : ∃ k, 4 - str.length = k + 1 := ⟨3 - str.length, by omega⟩
        rw [left, List.take_succ_cons]
        exact List.mem_cons_self ..
    rw [same] at member ⊢
    rw [lex_unit]
    cases unit : codeUnit a b c d with
    | none => rfl
    | some u => exact absurd rfl (codeUnit_plain unit 92 member).2.2

/-- What follows the end or a backslash is no character that stands for itself. -/
theorem plainNext_of_stop (stop : ∀ c ∈ r.head?, c = 92) (found : lex r = some ps) : plainNext ps = false := by
  match r, stop, found with
  | [], _, found =>
    rw [lex] at found
    cases found
    rfl
  | [c], stop, found =>
    obtain rfl := stop c rfl
    simp [lex] at found
  | c :: ch :: t, stop, found =>
    obtain rfl := stop c rfl
    by_cases unit : ch = 117
    · subst unit
      match t, found with
      | a :: b :: c :: d :: t, found =>
        rw [lex_unit, Option.bind_eq_some_iff] at found
        obtain ⟨u, -, found⟩ := found
        obtain ⟨ps', -, rfl⟩ := Option.map_eq_some_iff.mp found
        rfl
      | [], found | [_], found | [_, _], found | [_, _, _], found => simp [lex, escape] at found
    · rw [lex_escape unit, Option.bind_eq_some_iff] at found
      obtain ⟨c, -, found⟩ := found
      obtain ⟨ps', -, rfl⟩ := Option.map_eq_some_iff.mp found
      rfl

/-- What can stand between two quotes ends at the second one. -/
theorem lex_closed (found : lex str = some ps) : Closed str ∧ ∀ c ∈ str, 32 ≤ c := by
  induction str using lex.induct generalizing ps with
  | case1 => exact ⟨.nil, by simp⟩
  | case2 a b c d s ih =>
    rw [lex_unit, Option.bind_eq_some_iff] at found
    obtain ⟨u, unit, inner⟩ := found
    obtain ⟨ps', inner, -⟩ := Option.map_eq_some_iff.mp inner
    obtain ⟨closed, printable⟩ := ih inner
    have digits := codeUnit_plain unit
    simp only [List.forall_mem_cons] at digits ⊢
    obtain ⟨ha, hb, hc, hd, -⟩ := digits
    refine ⟨.escaped 117 (.plain ha.2.2 ha.2.1 (.plain hb.2.2 hb.2.1 (.plain hc.2.2 hc.2.1
      (.plain hd.2.2 hd.2.1 closed)))), ?_⟩
    exact ⟨by decide, by decide, ha.1, hb.1, hc.1, hd.1, printable⟩
  | case3 e s other ih =>
    rw [lex] at found
    · simp only [bind, Option.bind_eq_some_iff] at found
      obtain ⟨c, escaped, ps', inner, -⟩ := found
      obtain ⟨closed, printable⟩ := ih inner
      have plain := forall_byte (P := fun c => (escape c).isSome → 32 ≤ c) (by decide +kernel) e
        (by rw [escaped]; rfl)
      refine ⟨.escaped e closed, ?_⟩
      simp only [List.forall_mem_cons]
      exact ⟨by decide, plain, printable⟩
    · exact other
  | case4 c s other other' wrong =>
    rw [lex, if_pos wrong] at found
    · cases found
    · exact other
    · exact other'
  | case5 c s other other' fine ih =>
    rw [lex, if_neg fine] at found
    · simp only [bind, Option.bind_eq_some_iff] at found
      obtain ⟨ps', inner, -⟩ := found
      obtain ⟨closed, printable⟩ := ih inner
      rw [not_or, not_or, UInt8.not_lt] at fine
      refine ⟨.plain fine.2.2 fine.2.1 closed, ?_⟩
      simp only [List.forall_mem_cons]
      exact ⟨fine.1, printable⟩
    · exact other
    · exact other'

end Pieces

section Substitution

/-- An error in the middle of a string. -/
structure Broken (s : State) (e : Error) (s' : State) : Prop where
  stack : e ≠ .stack
  endless : e ≠ .endless
  keycache : s'.f_str_keycache = s.f_str_keycache
  prev : s'.f_str_surrogate_prev = 0 ∨ IsFirst s'.f_str_surrogate_prev

variable {ch a b c d : UInt8} {ucode more r : Text} {u : ℕ}

/-- `out` takes the place of what is in front of `r`, and what waits afterwards is taken into account. -/
def Replaced (s : State) (text r out : Text) (s' : State) : Prop :=
  s' = { s with f_str_surrogate_prev := s'.f_str_surrogate_prev } ∧
    (s'.f_str_surrogate_prev = 0 ∨ IsFirst s'.f_str_surrogate_prev) ∧
    ∃ front, lex text = (lex r).map (front ++ ·) ∧ ∀ ps, lex r = some ps →
      assembled s.f_str_surrogate_prev (front ++ ps) = (assembled s'.f_str_surrogate_prev ps).map (out ++ ·)

/-- The text stands for nothing. -/
def Refused (s : State) (text : Text) (e : Error) (s' : State) : Prop :=
  Broken s e s' ∧ ∀ ps, lex text = some ps → assembled s.f_str_surrogate_prev ps = none

theorem lex_unit_append (plain : ∀ c ∈ more, Plain c) :
    lex (92 :: 117 :: a :: b :: c :: d :: (more ++ r)) =
      (codeUnit a b c d).bind fun u => (lex r).map (.unit u :: more.map .raw ++ ·) := by
  rw [lex_unit, lex_append plain]
  simp only [Option.map_map]
  rfl

theorem map_append_map (front back : Text) (found : Option Text) :
    (found.map (back ++ ·)).map (front ++ ·) = found.map (front ++ back ++ ·) := by
  cases found with
  | none => rfl
  | some t => exact congrArg some (List.append_assoc ..).symm

theorem Replaced.bmp (unit : codeUnit a b c d = some u) (plain : ∀ c ∈ more, Plain c) (first : ¬IsFirst u)
    (second : ¬IsSecond u) (prev : s.f_str_surrogate_prev = 0 ∨ IsFirst s.f_str_surrogate_prev) :
    Replaced s (92 :: 117 :: a :: b :: c :: d :: (more ++ r)) r (utf8 u ++ more) s := by
  refine ⟨rfl, prev, .unit u :: more.map .raw, ?_, fun ps _ => ?_⟩
  · rw [lex_unit_append plain, unit, Option.bind_some]
  · rw [List.cons_append, assembled_unit first second, assembled_append, map_append_map]

theorem Replaced.first (unit : codeUnit a b c d = some u) (first : IsFirst u) (nothing : s.f_str_surrogate_prev = 0)
    (stop : ∀ c ∈ r.head?, c = 92) :
    Replaced s (92 :: 117 :: a :: b :: c :: d :: r) r [] { s with f_str_surrogate_prev := u } := by
  refine ⟨rfl, .inr first, [.unit u], ?_, fun ps found => ?_⟩
  · rw [lex_unit, unit]
    rfl
  · have stops := plainNext_of_stop stop found
    rw [List.singleton_append, assembled_first first, if_pos ⟨nothing, stops⟩]
    simp

theorem Replaced.second (unit : codeUnit a b c d = some u) (plain : ∀ c ∈ more, Plain c) (second : IsSecond u)
    (waiting : s.f_str_surrogate_prev ≠ 0) :
    Replaced s (92 :: 117 :: a :: b :: c :: d :: (more ++ r)) r (utf8 (pair s.f_str_surrogate_prev u) ++ more)
      { s with f_str_surrogate_prev := 0 } := by
  refine ⟨rfl, .inl rfl, .unit u :: more.map .raw, ?_, fun ps _ => ?_⟩
  · rw [lex_unit_append plain, unit, Option.bind_some]
  · rw [List.cons_append, assembled_second second waiting, assembled_append, map_append_map]

theorem Replaced.escape (other : ch ≠ 117) (escaped : escape ch = some c) (plain : ∀ c ∈ ucode, Plain c)
    (nothing : s.f_str_surrogate_prev = 0) : Replaced s (92 :: ch :: (ucode ++ r)) r (c :: ucode) s := by
  refine ⟨rfl, .inl nothing, .escape c :: ucode.map .raw, ?_, fun ps _ => ?_⟩
  · rw [lex_escape other, escaped, lex_append plain]
    exact Option.map_map _ _ _
  · rw [nothing, List.cons_append, assembled_escape, assembled_append, Option.map_map]
    rfl

/-- A first half that is not allowed where it is. -/
theorem refused_first {e : Error} {s' : State} (unit : codeUnit a b c d = some u) (first : IsFirst u)
    (plain : ∀ c ∈ more, Plain c) (bad : s.f_str_surrogate_prev ≠ 0 ∨ more ≠ []) (broken : Broken s e s') :
    Refused s (92 :: 117 :: a :: b :: c :: d :: (more ++ r)) e s' := by
  refine ⟨broken, fun ps found => ?_⟩
  rw [lex_unit_append plain, unit, Option.bind_some] at found
  obtain ⟨ps', -, rfl⟩ := Option.map_eq_some_iff.mp found
  refine (assembled_first first _).trans (if_neg ?_)
  rintro ⟨nothing, stops⟩
  rcases bad with waiting | next
  · exact waiting nothing
  · obtain ⟨c, more, rfl⟩ := List.exists_cons_of_ne_nil next
    exact Bool.noConfusion stops

/-- A second half, and nothing is waiting. -/
theorem refused_second {e : Error} {s' : State} (unit : codeUnit a b c d = some u) (second : IsSecond u)
    (plain : ∀ c ∈ more, Plain c) (nothing : s.f_str_surrogate_prev = 0) (broken : Broken s e s') :
    Refused s (92 :: 117 :: a :: b :: c :: d :: (more ++ r)) e s' := by
  refine ⟨broken, fun ps found => ?_⟩
  rw [lex_unit_append plain, unit, Option.bind_some] at found
  obtain ⟨ps', -, rfl⟩ := Option.map_eq_some_iff.mp found
  change assembled _ (.unit u :: _) = none
  rw [assembled, if_neg fun first => Nat.not_lt.mpr second.1 first.2, if_pos second, if_pos nothing]

/-- What `f_str_subst` replaces are the pieces in front. -/
theorem f_str_subst_ensures (plain : ∀ c ∈ ucode, Plain c) (short : ucode.length ≤ 5)
    (stop : ucode.length < 5 → ∀ c ∈ r.head?, c = 92)
    (prev : s.f_str_surrogate_prev = 0 ∨ IsFirst s.f_str_surrogate_prev) :
    Ensures (f_str_subst ch ucode) s (Replaced s (92 :: ch :: (ucode ++ r)) r)
      (Refused s (92 :: ch :: (ucode ++ r))) := by
  simp only [f_str_subst, ensures_bind, ensures_get]
  refine (ensures_ite _ _ _).mpr ⟨fun unit => ?_, fun other =>
    (ensures_ite _ _ _).mpr ⟨fun waiting => ?_, fun nothing => ?_⟩⟩
  · subst unit
    have few (few : ucode.length < 4) : Refused s (92 :: 117 :: (ucode ++ r)) .arithmetic s := by
      refine ⟨⟨Error.noConfusion, Error.noConfusion, rfl, prev⟩, fun ps found => ?_⟩
      rw [lex_short few (stop (Nat.lt_trans few (by decide)))] at found
      cases found
    rcases ucode with _ | ⟨c1, _ | ⟨c2, _ | ⟨c3, _ | ⟨c4, more⟩⟩⟩⟩
    · exact few (by simp)
    · exact few (by simp)
    · exact few (by simp)
    · exact few (by simp)
    simp only [List.forall_mem_cons] at plain
    have more_plain := plain.2.2.2.2
    simp only [List.cons_append, ucodeOf_eq]
    cases unit : codeUnit c1 c2 c3 c4 with
    | none =>
      refine ⟨⟨Error.noConfusion, Error.noConfusion, rfl, prev⟩, fun ps found => ?_⟩
      rw [lex_unit, unit] at found
      cases found
    | some u =>
      have bound := codeUnit_lt unit
      have bmp (apart : u < 0xD800 ∨ 0xE000 ≤ u) := Replaced.bmp (r := r) unit more_plain
        (fun first => by have := first.1; have := first.2; omega)
        (fun second => by have := second.1; have := second.2; omega) prev
      refine (ensures_ite _ _ _).mpr ⟨fun one => ?_, fun more_than_one => ?_⟩
      · have replaced := bmp (.inl (by omega))
        rwa [utf8_eq (.inl (by omega)), if_pos one] at replaced
      refine (ensures_ite _ _ _).mpr ⟨fun two => ?_, fun more_than_two => ?_⟩
      · have replaced := bmp (.inl (by omega))
        rwa [utf8_eq (.inl (by omega)), if_neg more_than_one, if_pos two] at replaced
      refine (ensures_ite _ _ _).mpr ⟨fun three => ?_, fun half => ?_⟩
      · have replaced := bmp three
        rwa [utf8_eq (by simp only [Nat.isValidChar]; omega), if_neg more_than_one, if_neg more_than_two,
          if_pos bound] at replaced
      refine (ensures_ite _ _ _).mpr ⟨fun low => ?_, fun high => ?_⟩
      · have first : IsFirst u := ⟨by omega, low⟩
        refine (ensures_ite _ _ _).mpr ⟨fun nothing => ?_, fun waiting => ?_⟩
        · refine (ensures_bind _ _).mpr ((ensures_ite _ _ _).mpr ⟨fun last => ?_, fun next => ?_⟩)
          · subst last
            exact .first unit first nothing (stop (by simp))
          · exact refused_first unit first more_plain (.inr next)
              ⟨Error.noConfusion, Error.noConfusion, rfl, .inr first⟩
        · refine (ensures_bind _ _).mpr (refused_first unit first more_plain (.inl waiting) ?_)
          exact ⟨Error.noConfusion, Error.noConfusion, rfl, .inl rfl⟩
      · have second : IsSecond u := ⟨by omega, by omega⟩
        refine (ensures_ite _ _ _).mpr ⟨fun waiting => (ensures_bind _ _).mpr ?_, fun nothing => ?_⟩
        · obtain ⟨least, valid⟩ := pair_range (prev.resolve_left waiting) second
          have replaced := Replaced.second (r := r) unit more_plain second waiting
          rwa [utf8_eq valid, if_neg (by omega), if_neg (by omega), if_neg (by omega)] at replaced
        · rw [not_not] at nothing
          exact refused_second unit second more_plain nothing
            ⟨Error.noConfusion, Error.noConfusion, rfl, .inl nothing⟩
  · refine (ensures_bind _ _).mpr ⟨⟨Error.noConfusion, Error.noConfusion, rfl, .inl rfl⟩, fun ps found => ?_⟩
    rw [lex_escape other, Option.bind_eq_some_iff] at found
    obtain ⟨c, -, found⟩ := found
    obtain ⟨ps', -, rfl⟩ := Option.map_eq_some_iff.mp found
    rw [assembled, if_neg waiting]
  · rw [not_not] at nothing
    rw [f_str_escapetbl_eq]
    cases escaped : escape ch with
    | none =>
      refine ⟨⟨Error.noConfusion, Error.noConfusion, rfl, .inl nothing⟩, fun ps found => ?_⟩
      rw [lex_escape other, escaped] at found
      cases found
    | some c => exact .escape other escaped plain nothing

theorem substitute_plain {c : UInt8} (backslash : c ≠ 92) (str : Text) :
    substitute (c :: str) = substitute str >>= fun outs => pure (c :: outs) := by
  rw [substitute]
  intro d rest equal
  exact absurd equal backslash

theorem substitute_escaped (ch : UInt8) (str : Text) :
    substitute (92 :: ch :: str) = f_str_subst ch ((str.takeWhile (· ≠ 92)).take 5) >>= fun out =>
      substitute (str.drop ((str.takeWhile (· ≠ 92)).take 5).length) >>= fun outs => pure (out ++ outs) := by
  rw [substitute]

theorem Closed.drop {u r : Text} (closed : Closed (u ++ r)) (plain : ∀ c ∈ u, c ≠ 92) :
    Closed r ∧ ∀ c ∈ u, c ≠ 34 := by
  induction u with
  | nil => exact ⟨closed, by simp⟩
  | cons c u ih =>
    rw [List.forall_mem_cons] at plain
    rw [List.cons_append] at closed
    generalize whole : u ++ r = str at closed
    cases closed with
    | escaped ch closed => exact absurd rfl plain.1
    | plain backslash quote closed =>
      obtain ⟨closed, quotes⟩ := ih (by rwa [whole]) plain.2
      exact ⟨closed, List.forall_mem_cons.mpr ⟨quote, quotes⟩⟩

/-- The characters that are handed to `f_str_subst`, and what is behind them. -/
theorem ucode_split {str : Text} (closed : Closed str) (printable : ∀ c ∈ str, 32 ≤ c) :
    ∃ ucode r, (str.takeWhile (· ≠ 92)).take 5 = ucode ∧ str = ucode ++ r ∧ (∀ c ∈ ucode, Plain c) ∧
      ucode.length ≤ 5 ∧ (ucode.length < 5 → ∀ c ∈ r.head?, c = 92) ∧ Closed r := by
  have split := List.prefix_iff_eq_append.mp
    ((List.take_prefix 5 (str.takeWhile (· ≠ 92))).trans (List.takeWhile_prefix _))
  have other : ∀ c ∈ (str.takeWhile (· ≠ 92)).take 5, c ≠ 92 := by
    intro c member
    simpa using List.mem_takeWhile_imp (List.mem_of_mem_take member)
  obtain ⟨closed', quotes⟩ := Closed.drop (by rwa [split]) other
  refine ⟨_, _, rfl, split.symm, fun c member => ⟨?_, quotes c member, other c member⟩,
    List.length_take_le .., ?_, closed'⟩
  · rw [← split] at printable
    exact printable c (List.mem_append_left _ member)
  · intro short c head
    have whole : (str.takeWhile (· ≠ 92)).take 5 = str.takeWhile (· ≠ 92) := by
      rw [List.length_take] at short
      exact List.take_of_length_le (by omega)
    have behind : str.drop (str.takeWhile (· ≠ 92)).length = str.dropWhile (· ≠ 92) := by
      conv_lhs =>
        arg 2
        rw [← List.takeWhile_append_dropWhile (p := fun c => decide (c ≠ 92)) (l := str)]
      rw [List.drop_left]
    rw [whole, behind] at head
    have stops : ¬(str.dropWhile fun c => decide (c ≠ 92)).head?.any fun c => decide (c ≠ 92) := dropWhile_head str
    rw [Option.mem_def.mp head] at stops
    simpa using stops

/-- What is replaced in a string, apart from a half that is left at its end. -/
theorem substitute_ensures {str : Text} (closed : Closed str) (printable : ∀ c ∈ str, 32 ≤ c)
    (prev : s.f_str_surrogate_prev = 0 ∨ IsFirst s.f_str_surrogate_prev) :
    Ensures (substitute str) s
      (fun out s' => s' = { s with f_str_surrogate_prev := s'.f_str_surrogate_prev } ∧
        ∃ ps, lex str = some ps ∧ assembled s.f_str_surrogate_prev ps =
          if s'.f_str_surrogate_prev = 0 then some out else none)
      (fun e s' => Broken s e s' ∧ ∀ ps, lex str = some ps → assembled s.f_str_surrogate_prev ps = none) := by
  induction size : str.length using Nat.strong_induction_on generalizing str s with
  | _ size' ih =>
  subst size
  cases closed with
  | nil =>
    rw [substitute]
    refine ⟨rfl, [], by rw [lex], by rw [assembled]⟩
  | @plain c str backslash quote closed =>
    rw [List.forall_mem_cons] at printable
    rw [substitute_plain backslash, lex_cons ⟨printable.1, quote, backslash⟩]
    refine (ensures_bind _ _).mpr ((ih str.length (by simp) closed printable.2 prev rfl).mono ?_ ?_)
    · rintro out s' ⟨same, ps, found, result⟩
      refine ⟨same, .raw c :: ps, by rw [found]; rfl, ?_⟩
      rw [assembled, result]
      split_ifs <;> rfl
    · rintro e s' ⟨broken, none_⟩
      refine ⟨broken, fun ps found => ?_⟩
      obtain ⟨ps', found', rfl⟩ := Option.map_eq_some_iff.mp found
      rw [assembled, none_ ps' found']
      rfl
  | @escaped str ch closed =>
    simp only [List.forall_mem_cons] at printable
    obtain ⟨ucode, r, taken, rfl, plain, short, stop, closed'⟩ := ucode_split closed printable.2.2
    rw [substitute_escaped, taken, List.drop_left]
    refine (ensures_bind _ _).mpr ((f_str_subst_ensures plain short stop prev).mono ?_ ?_)
    · rintro out s' ⟨same, prev', front, split, step⟩
      have printable' : ∀ c ∈ r, 32 ≤ c := fun c member => printable.2.2 c (List.mem_append_right _ member)
      have shorter : r.length < (92 :: ch :: (ucode ++ r)).length := by
        simp only [List.length_cons, List.length_append]
        omega
      refine (ensures_bind _ _).mpr ((ih r.length shorter closed' printable' prev' rfl).mono ?_ ?_)
      · rintro outs s'' ⟨same', ps, found, result⟩
        refine ⟨?_, front ++ ps, by rw [split, found]; rfl, ?_⟩
        · rw [same', same]
        · rw [step ps found, result]
          split_ifs <;> rfl
      · rintro e s'' ⟨broken, none_⟩
        refine ⟨⟨broken.stack, broken.endless, ?_, broken.prev⟩, fun ps found => ?_⟩
        · rw [broken.keycache, same]
        · rw [split] at found
          obtain ⟨ps', found', rfl⟩ := Option.map_eq_some_iff.mp found
          rw [step ps' found', none_ ps' found']
          rfl
    · rintro e s' ⟨broken, none_⟩
      exact ⟨broken, none_⟩

end Substitution

section Keys

variable {text body t r : Text}

/-- The string the text begins with, which is behind a quote. -/
def Quoted (text t r : Text) : Prop := ∃ body, text = body ++ 34 :: r ∧ Accepted body t

theorem Accepted.closed (accepted : Accepted body t) : Closed body ∧ ∀ c ∈ body, 32 ≤ c := by
  obtain ⟨ps, found, -⟩ := accepted
  exact lex_closed found

theorem quoted_iff (closed : Closed body) (split : text = body ++ 34 :: r) {t' r' : Text} :
    Quoted text t' r' ↔ r' = r ∧ Accepted body t' := by
  constructor
  · rintro ⟨body', split', accepted⟩
    obtain ⟨rfl, rfl⟩ := closed.unique accepted.closed.1 (split.symm.trans split')
    exact ⟨rfl, accepted⟩
  · rintro ⟨rfl, accepted⟩
    exact ⟨body, split, accepted⟩

theorem Accepted.unique {t' : Text} (accepted : Accepted body t) (accepted' : Accepted body t') : t' = t := by
  obtain ⟨ps, found, result⟩ := accepted
  obtain ⟨ps', found', result'⟩ := accepted'
  obtain rfl := Option.some.inj (found.symm.trans found')
  exact Option.some.inj (result'.symm.trans result)

/-- Without a backslash a string stands for itself. -/
theorem accepted_plain (closed : Closed body) (printable : ∀ c ∈ body, 32 ≤ c) (plain : 92 ∉ body) :
    Accepted body body := by
  have other : ∀ c ∈ body, c ≠ 92 := by
    rintro c member rfl
    exact plain member
  have quotes := (Closed.drop (r := []) (by rwa [List.append_nil]) other).2
  have found := lex_append (fun c member => ⟨printable c member, quotes c member, other c member⟩) []
  have result := assembled_append 0 body []
  rw [List.append_nil, lex] at found
  rw [assembled, if_pos rfl] at result
  exact ⟨_, found, result.trans (by simp)⟩

/-- What is known about a key that has been seen is still true when it is seen again. -/
theorem f_str_between_ensures (iskey : Bool) (clean : Clean s) (closed : Closed body) :
    Ensures (f_str_between iskey body) s
      (fun out s' => (Clean s' ∧ s'.rec_depth = s.rec_depth ∧ s'.pos = s.pos) ∧ Accepted body out)
      (fun e s' => Leaves e s' ∧ ∀ t, ¬Accepted body t) := by
  simp only [f_str_between, ensures_bind, ensures_get]
  cases known : (if iskey then s.f_str_keycache.lookup body else none) with
  | some key =>
    refine ⟨⟨clean, rfl, rfl⟩, clean.keycache body key ?_⟩
    cases iskey with
    | false => cases known
    | true => exact known
  | none =>
    refine (ensures_ite _ _ _).mpr ⟨fun control => ?_, fun printable => ?_⟩
    · refine ⟨clean.leaves _ _, fun t accepted => ?_⟩
      obtain ⟨c, member, less⟩ := List.any_eq_true.mp control
      exact absurd (of_decide_eq_true less) (UInt8.not_lt.mpr (accepted.closed.2 c member))
    · have printable' : ∀ c ∈ body, 32 ≤ c := by
        intro c member
        rw [List.any_eq_true] at printable
        exact UInt8.not_lt.mp fun less => printable ⟨c, member, decide_eq_true less⟩
      have known {out : Text} {s' : State} (same : s' = { s with f_str_surrogate_prev := s'.f_str_surrogate_prev })
          (prev : s'.f_str_surrogate_prev = 0) (accepted : Accepted body out) :
          Clean s' ∧ Clean { s' with f_str_keycache := s'.f_str_keycache.insert body out } := by
        have keycache : s'.f_str_keycache = s.f_str_keycache := by rw [same]
        refine ⟨⟨prev, fun k t found => clean.keycache k t (keycache ▸ found)⟩, prev, fun k t found => ?_⟩
        by_cases this : k = body
        · subst this
          rw [AList.lookup_insert] at found
          exact Option.some.inj found ▸ accepted
        · rw [AList.lookup_insert_ne this] at found
          exact clean.keycache k t (keycache ▸ found)
      refine (ensures_ite _ _ _).mpr ⟨fun backslash => ?_, fun plain => ?_⟩
      · refine (ensures_bind _ _).mpr ((substitute_ensures closed printable' (.inl clean.prev)).mono ?_ ?_)
        · rintro out s' ⟨same, ps, found, result⟩
          rw [clean.prev] at result
          refine (ensures_ite _ _ _).mpr ⟨fun waiting => ?_, fun nothing => ?_⟩
          · rw [if_neg waiting.2] at result
            have clean' : Clean { s' with f_str_surrogate_prev := 0 } :=
              ⟨rfl, fun k t found => clean.keycache k t (by rw [same] at found; exact found)⟩
            refine (ensures_bind _ _).mpr ⟨clean'.leaves _ _, ?_⟩
            rintro t ⟨ps', found', result'⟩
            obtain rfl := Option.some.inj (found.symm.trans found')
            exact Option.some_ne_none t (result'.symm.trans result)
          · have prev : s'.f_str_surrogate_prev = 0 := by
              by_contra waiting
              exact nothing ⟨backslash, waiting⟩
            rw [if_pos prev] at result
            have accepted : Accepted body out := ⟨ps, found, result⟩
            have depth : s'.rec_depth = s.rec_depth ∧ s'.pos = s.pos := by
              rw [same]
              exact ⟨rfl, rfl⟩
            refine (ensures_ite _ _ _).mpr ⟨fun _ => ?_, fun _ => ?_⟩
            · exact ⟨⟨(known same prev accepted).2, depth⟩, accepted⟩
            · exact ⟨⟨(known same prev accepted).1, depth⟩, accepted⟩
        · rintro e s' ⟨broken, none_⟩
          rw [clean.prev] at none_
          refine ⟨⟨broken.stack, broken.endless, broken.prev, ?_⟩, ?_⟩
          · rw [broken.keycache]
            exact clean.keycache
          · rintro t ⟨ps, found, result⟩
            exact Option.some_ne_none t (result.symm.trans (none_ ps found))
      · have absent : 92 ∉ body := by simpa using plain
        have accepted := accepted_plain closed printable' absent
        refine (ensures_ite _ _ _).mpr ⟨fun both => absurd both.1 plain, fun _ => ?_⟩
        refine (ensures_ite _ _ _).mpr ⟨fun _ => ?_, fun _ => ?_⟩
        · exact ⟨⟨(known rfl clean.prev accepted).2, rfl, rfl⟩, accepted⟩
        · exact ⟨⟨clean, rfl, rfl⟩, accepted⟩

theorem reads_f_str (iskey : Bool) {front : Text} (clean : Clean s) (split : json = front ++ 34 :: text)
    (position : s.pos = front.length + 2) : Reads json (f_str json iskey) s (Quoted text) := by
  have nothing : Escaped [] := fun front' back split => absurd split (by simp)
  have room : text.length < json.length + 1 := by
    simp only [split, List.length_append, List.length_cons]
    omega
  have loop := closingQuote_ensures (s := s) split (List.nil_append text).symm nothing room
  rw [List.length_nil, Nat.add_zero, ← position] at loop
  have left : At json s.pos text := ⟨front ++ [34], by simp [split], by simp [position]⟩
  refine (ensures_bind _ _).mpr ((ensures_bind _ _).mpr (loop.mono ?_ ?_))
  · rintro quote s' ⟨rfl, body, r, rfl, closed, rfl⟩
    have between : (rest json s'.pos).take (s'.pos + body.length - s'.pos) = body := by
      rw [left.rest, Nat.add_sub_cancel_left, List.take_left]
    have clean' : Clean { s' with pos := s'.pos + body.length + 1 } := ⟨clean.prev, clean.keycache⟩
    refine (ensures_bind _ _).mpr ?_
    rw [between]
    refine (f_str_between_ensures iskey clean' closed).mono ?_ ?_
    · rintro out s'' ⟨⟨clean'', depth, pos⟩, accepted⟩
      refine ⟨clean'', depth, r, pos ▸ left.append.cons, ⟨body, rfl, accepted⟩, fun t r' other => ?_⟩
      obtain ⟨same, other'⟩ := (quoted_iff closed rfl).mp other
      exact ⟨accepted.unique other', same⟩
    · rintro e s'' ⟨leaves, none_⟩
      exact ⟨leaves, fun t r' other => none_ t ((quoted_iff closed rfl).mp other).2⟩
  · rintro e s' ⟨rfl, rfl, none_⟩
    refine ⟨clean.leaves _ _, ?_⟩
    rintro t r ⟨body, split, accepted⟩
    exact none_ body r split accepted.closed.1

end Keys

end OmniaJit.Vendor.LunaJson
