import OmniaJit.Vendor.JsonDecoded

/-! # Decoding one text after the other

A decoder is used for many texts. What it does with one of them does not depend on the others, with one exception:
a string that fails between the two halves of a surrogate pair leaves the first one for the next text.
-/

namespace OmniaJit.Vendor.LunaJson

open OmniaJit.Data OmniaJit.Data.Json OmniaJit.Machine OmniaJit.Machine.Program

variable {ν : Type} {num : Numbers ν} {json : Json} {s : State} {v : Value ν}

section Results

theorem clean_initial : Clean {} := ⟨rfl, fun k t found => by cases found⟩

variable (num json) in
theorem decode_ok_iff (clean : Clean s) (v : Value ν) :
    (∃ s', decode num json s = .ok v s') ↔ Document num Accepted 1000 v json := by
  have result := decode_ensures num json clean
  rw [Ensures] at result
  cases ran : decode num json s with
  | ok w s' =>
    rw [ran] at result
    obtain ⟨-, document, only⟩ := result
    constructor
    · rintro ⟨s'', same⟩
      cases same
      exact document
    · intro other
      exact ⟨s', by rw [only v other]⟩
  | error e s' =>
    rw [ran] at result
    refine iff_of_false ?_ (result.2 v)
    rintro ⟨s'', same⟩
    cases same

end Results

section Strings

variable {ps : List Piece} {body t : Text}

/-- Between the two halves of a pair there is another code unit. -/
def Apart (ps : List Piece) : Prop :=
  ∃ front u u' back, ps = front ++ .unit u :: .unit u' :: back ∧ IsFirst u ∧ ¬IsFirst u' ∧ ¬IsSecond u'

theorem apart_cons_iff {p : Piece} : Apart (p :: ps) ↔
    (∃ u u' back, p = .unit u ∧ ps = .unit u' :: back ∧ IsFirst u ∧ ¬IsFirst u' ∧ ¬IsSecond u') ∨ Apart ps := by
  constructor
  · rintro ⟨front, u, u', back, same, first, notFirst, notSecond⟩
    cases front with
    | nil =>
      cases same
      exact .inl ⟨u, u', back, rfl, rfl, first, notFirst, notSecond⟩
    | cons q front =>
      cases same
      exact .inr ⟨front, u, u', back, rfl, first, notFirst, notSecond⟩
  · rintro (⟨u, u', back, rfl, rfl, apart⟩ | ⟨front, u, u', back, rfl, apart⟩)
    · exact ⟨[], u, u', back, rfl, apart⟩
    · exact ⟨p :: front, u, u', back, rfl, apart⟩

/-- Where nothing can be between two halves, what comes first does not matter. -/
theorem apart_other {p : Piece} (other : ∀ u u' back, p = .unit u → ps = .unit u' :: back → IsFirst u →
    IsFirst u' ∨ IsSecond u') : Apart (p :: ps) ↔ Apart ps := by
  rw [apart_cons_iff, or_iff_right]
  rintro ⟨u, u', back, rfl, rfl, first, notFirst, notSecond⟩
  rcases other u u' back rfl rfl first with isFirst | isSecond
  · exact notFirst isFirst
  · exact notSecond isSecond

theorem map_some_iff {front : Text} {first second : Option Text} {holds : Prop}
    (same : ∀ t, first = some t ↔ second = some t ∧ holds) :
    first.map (front ++ ·) = some t ↔ second.map (front ++ ·) = some t ∧ holds := by
  simp only [Option.map_eq_some_iff, same]
  constructor
  · rintro ⟨t', ⟨found, holds⟩, rfl⟩
    exact ⟨⟨t', found, rfl⟩, holds⟩
  · rintro ⟨⟨t', found, rfl⟩, holds⟩
    exact ⟨t', ⟨found, holds⟩, rfl⟩

theorem decoded_raw (c : UInt8) (ps : List Piece) : decoded (.raw c :: ps) = (decoded ps).map ([c] ++ ·) := by
  rw [decoded]
  cases decoded ps <;> rfl

theorem decoded_escape (c : UInt8) (ps : List Piece) : decoded (.escape c :: ps) = (decoded ps).map ([c] ++ ·) := by
  rw [decoded]
  cases decoded ps <;> rfl

theorem decoded_pair {u u' : ℕ} (first : IsFirst u) (second : IsSecond u') (ps : List Piece) :
    decoded (.unit u :: .unit u' :: ps) = (decoded ps).map (utf8 (pair u u') ++ ·) := by
  rw [decoded, if_pos first, if_pos second]
  cases decoded ps <;> rfl

theorem decoded_unit {u : ℕ} (notFirst : ¬IsFirst u) (ps : List Piece) :
    decoded (.unit u :: ps) = if IsSecond u then none else (decoded ps).map (utf8 u ++ ·) := by
  by_cases next : ∃ u' ps', ps = .unit u' :: ps'
  · obtain ⟨u', ps', rfl⟩ := next
    rw [decoded, if_neg notFirst]
    cases decoded (.unit u' :: ps') <;> rfl
  · rw [decoded, if_neg notFirst]
    · cases decoded ps <;> rfl
    · exact fun u' ps' same => next ⟨u', ps', same⟩

/-- What the standard makes of the characters is what the decoder makes of them, if the halves are together. -/
theorem decoded_iff (ps : List Piece) (t : Text) : decoded ps = some t ↔ assembled 0 ps = some t ∧ ¬Apart ps := by
  induction ps using decoded.induct generalizing t with
  | case1 =>
    rw [decoded, assembled, if_pos rfl]
    refine (and_iff_left ?_).symm
    rintro ⟨front, u, u', back, same, -⟩
    exact absurd same (by simp)
  | case2 c ps ih =>
    rw [decoded_raw, apart_other (by simp), show assembled 0 (.raw c :: ps) = _ from assembled_append 0 [c] ps]
    exact map_some_iff ih
  | case3 c ps ih =>
    rw [decoded_escape, apart_other (by simp), assembled_escape]
    exact map_some_iff ih
  | case4 u first u' ps second ih =>
    have waiting : u ≠ 0 := by
      rintro rfl
      exact absurd first.1 (by decide)
    have together : Apart (.unit u :: .unit u' :: ps) ↔ Apart ps := by
      rw [apart_other, apart_other]
      · rintro w w' back same - first'
        cases same
        exact absurd first'.2 (Nat.not_lt.mpr second.1)
      · rintro w w' back - same -
        cases same
        exact .inr second
    rw [decoded_pair first second, together, assembled_first first, if_pos ⟨rfl, rfl⟩, assembled_second second waiting]
    exact map_some_iff ih
  | case5 u first u' ps notSecond =>
    have strict : decoded (.unit u :: .unit u' :: ps) = none := by rw [decoded, if_pos first, if_neg notSecond]
    rw [strict]
    refine iff_of_false (by simp) ?_
    rintro ⟨lenient, together⟩
    by_cases again : IsFirst u'
    · have waiting : ¬(u = 0 ∧ plainNext ps = false) := by
        rintro ⟨rfl, -⟩
        exact absurd first.1 (by decide)
      rw [assembled_first first, if_pos ⟨rfl, rfl⟩, assembled_first again, if_neg waiting] at lenient
      cases lenient
    · exact together ⟨[], u, u', ps, rfl, first, again, notSecond⟩
  | case6 u ps first other =>
    have waiting : u ≠ 0 := by
      rintro rfl
      exact absurd first.1 (by decide)
    have strict : decoded (.unit u :: ps) = none := by
      rw [decoded, if_pos first]
      exact other
    have lenient : assembled 0 (.unit u :: ps) = none := by
      rw [assembled_first first]
      rcases ps with _ | ⟨c | c | u', ps⟩
      · rw [if_pos ⟨rfl, rfl⟩, assembled, if_neg waiting]
      · rw [if_neg fun both => Bool.noConfusion both.2]
      · rw [if_pos ⟨rfl, rfl⟩, assembled, if_neg waiting]
      · exact (other u' ps rfl).elim
    rw [strict, lenient]
    exact iff_of_false (by simp) (by simp)
  | case7 u ps notFirst second =>
    rw [decoded_unit notFirst, if_pos second, assembled, if_neg notFirst, if_pos second, if_pos rfl]
    exact iff_of_false (by simp) (by simp)
  | case8 u ps notFirst notSecond ih =>
    rw [decoded_unit notFirst, if_neg notSecond, assembled_unit notFirst notSecond, apart_other]
    · exact map_some_iff ih
    · rintro w w' back same - first
      cases same
      exact absurd first notFirst

/-- The strings of the standard are those that are taken where no other code unit is between two halves. -/
theorem standard_iff : Standard body t ↔ Accepted body t ∧ ∀ ps, lex body = some ps → ¬Apart ps := by
  constructor
  · rintro ⟨ps, found, strict⟩
    obtain ⟨lenient, together⟩ := (decoded_iff ps t).mp strict
    refine ⟨⟨ps, found, lenient⟩, fun ps' found' => ?_⟩
    cases found.symm.trans found'
    exact together
  · rintro ⟨⟨ps, found, lenient⟩, together⟩
    exact ⟨ps, found, (decoded_iff ps t).mpr ⟨lenient, together ps found⟩⟩

end Strings

section Sessions

/-- One text after the other; an error is caught by the caller. -/
def session (num : Numbers ν) : List Json → State → List (Except Error (Value ν))
  | [], _ => []
  | json :: texts, s =>
    match decode num json s with
    | .ok v s' => .ok v :: session num texts s'
    | .error e s' => .error e :: session num texts s'

end Sessions

section Halves

variable {body : Text} {a b c d x : UInt8} {u : ℕ}

theorem closingQuote_closed (closed : Closed body) (r : Text) (s : State) :
    closingQuote (34 :: (body ++ 34 :: r)) ((34 :: (body ++ 34 :: r)).length + 1) 2 s = .ok (body.length + 2) s := by
  have nothing : Escaped [] := fun front back split => absurd split (by simp)
  have room : (body ++ 34 :: r).length < (34 :: (body ++ 34 :: r)).length + 1 := by
    simp only [List.length_cons]
    omega
  have whole : 34 :: (body ++ 34 :: r) = [] ++ 34 :: (body ++ 34 :: r) := rfl
  have loop := closingQuote_ensures (s := s) whole (List.nil_append _).symm nothing room
  refine (loop.mono ?_ ?_).eq_ok
  · rintro quote s' ⟨rfl, body', r', split, closed', rfl⟩
    obtain ⟨rfl, -⟩ := closed.unique closed' split
    exact ⟨Nat.add_comm _ _, rfl⟩
  · rintro e s' ⟨-, -, none_⟩
    exact none_ body r rfl closed

/-- A document that is one string. -/
theorem decode_string (closed : Closed body) (s : State) : decode num (34 :: (body ++ [34])) s =
    (f_str_between false body >>= fun t => ended (34 :: (body ++ [34])) (.string t))
      { s with pos := body.length + 3, rec_depth := 0 } := by
  have start : matchSpaces (34 :: (body ++ [34])) 1 = 1 := rfl
  have entry : valueAt (34 :: (body ++ [34])) (call num (34 :: (body ++ [34])) 1001) 1 =
      setPos 2 >>= fun _ => f_str (34 :: (body ++ [34])) false >>= fun t => pure (.string t) := rfl
  have between : (rest (34 :: (body ++ [34])) 2).take (body.length + 2 - 2) = body := by
    rw [Nat.add_sub_cancel]
    exact List.take_left
  have string (s' : State) (pos : s'.pos = 2) : f_str (34 :: (body ++ [34])) false s' =
      f_str_between false body { s' with pos := body.length + 3 } := by
    have quote := closingQuote_closed closed [] s'
    have unfolded : f_str (34 :: (body ++ [34])) false s' =
        (closingQuote (34 :: (body ++ [34])) ((34 :: (body ++ [34])).length + 1) s'.pos >>= fun quote =>
          setPos (quote + 1) >>= fun _ =>
            f_str_between false ((rest (34 :: (body ++ [34])) s'.pos).take (quote - s'.pos))) s' := rfl
    rw [unfolded, pos]
    simp only [bind, EStateM.bind, quote, between]
    rfl
  rw [decode_valueAt, start]
  change (valueAt _ _ 1 >>= ended _) _ = _
  rw [entry, bind_assoc]
  change ((f_str _ false >>= fun t => pure (.string t)) >>= ended _) { s with pos := 2, rec_depth := 0 } = _
  simp only [bind_assoc, pure_bind]
  have run := string { s with pos := 2, rec_depth := 0 } rfl
  simp only [bind, EStateM.bind, run]

/-- The first half is kept although the string fails. -/
theorem f_str_subst_torn (unit : codeUnit a b c d = some u) (first : IsFirst u) (prev : s.f_str_surrogate_prev = 0) :
    Ensures (f_str_subst 117 [a, b, c, d, x]) s (fun _ _ => False)
      (fun e s' => s' = { s with f_str_surrogate_prev := u } ∧
        e = .parse s.pos "1st surrogate pair byte not continued by 2nd") := by
  obtain ⟨least, most⟩ := first
  simp only [f_str_subst, ensures_bind, ensures_get, ucodeOf_eq, unit]
  refine (ensures_ite _ _ _).mpr ⟨fun _ => ?_, fun other => absurd trivial other⟩
  refine (ensures_ite _ _ _).mpr ⟨fun one => by omega, fun _ => ?_⟩
  refine (ensures_ite _ _ _).mpr ⟨fun two => by omega, fun _ => ?_⟩
  refine (ensures_ite _ _ _).mpr ⟨fun three => by omega, fun _ => ?_⟩
  refine (ensures_ite _ _ _).mpr ⟨fun _ => ?_, fun high => absurd most high⟩
  refine (ensures_ite _ _ _).mpr ⟨fun _ => ?_, fun waiting => absurd prev waiting⟩
  exact (ensures_bind _ _).mpr ⟨rfl, rfl⟩

/-- A string with backslashes that is no key. -/
theorem f_str_between_substitute {post : Text → State → Prop} {exit : Error → State → Prop}
    (printable : ∀ c ∈ body, 32 ≤ c) (backslash : body.contains 92)
    (replaced : Ensures (substitute body) s (fun out s' => s'.f_str_surrogate_prev = 0 ∧ post out s') exit) :
    Ensures (f_str_between false body) s post exit := by
  simp only [f_str_between, ensures_bind, ensures_get, Bool.false_eq_true, if_false]
  refine (ensures_ite _ _ _).mpr ⟨fun control => ?_, fun _ => ?_⟩
  · obtain ⟨c, member, less⟩ := List.any_eq_true.mp control
    exact absurd (of_decide_eq_true less) (UInt8.not_lt.mpr (printable c member))
  · refine (ensures_ite _ _ _).mpr ⟨fun _ => ?_, fun plain => absurd backslash plain⟩
    refine (ensures_bind _ _).mpr (replaced.mono (fun out s' done => ?_) fun _ _ failed => failed)
    exact (ensures_ite _ _ _).mpr ⟨fun both => absurd done.1 both.2, fun _ => done.2⟩

theorem not_document_string (closed : Closed body) (none_ : ∀ t, ¬Accepted body t) (v : Value ν) :
    ¬Document num Accepted 1000 v (34 :: (body ++ [34])) := by
  intro document
  obtain ⟨r, front, -⟩ := document_iff.mp document
  have flat := (front_stands_iff 1000 (by decide) (by decide)).mp front
  obtain ⟨_, same, ⟨body', t, rfl, accepted, -⟩, -⟩ := front_scalar_iff.mp flat
  rw [List.append_assoc] at same
  obtain ⟨rfl, -⟩ := closed.unique accepted.closed.1 same
  exact none_ t accepted

theorem closed_unit {r : Text} (unit : codeUnit a b c d = some u) (closed : Closed r) :
    Closed (92 :: 117 :: a :: b :: c :: d :: r) := by
  have digits := codeUnit_plain unit
  simp only [List.forall_mem_cons] at digits
  obtain ⟨ha, hb, hc, hd, -⟩ := digits
  exact .escaped 117 (.plain ha.2.2 ha.2.1 (.plain hb.2.2 hb.2.1 (.plain hc.2.2 hc.2.1 (.plain hd.2.2 hd.2.1
    closed))))

theorem printable_unit {r : Text} (unit : codeUnit a b c d = some u) (printable : ∀ y ∈ r, 32 ≤ y) :
    ∀ y ∈ 92 :: 117 :: a :: b :: c :: d :: r, 32 ≤ y := by
  have digits := codeUnit_plain unit
  simp only [List.forall_mem_cons] at digits ⊢
  obtain ⟨ha, hb, hc, hd, -⟩ := digits
  exact ⟨by decide, by decide, ha.1, hb.1, hc.1, hd.1, printable⟩

variable (num) in
/-- A string that fails behind the first half of a pair. -/
theorem decode_torn (clean : Clean s) (unit : codeUnit a b c d = some u) (first : IsFirst u) (plain : Plain x) :
    ∃ s', s'.f_str_surrogate_prev = u ∧ decode num (34 :: ([92, 117, a, b, c, d, x] ++ [34])) s =
      .error (.parse 10 "1st surrogate pair byte not continued by 2nd") s' := by
  have fails : Ensures (decode num (34 :: ([92, 117, a, b, c, d, x] ++ [34]))) s (fun _ _ => False) (fun e s' =>
      e = .parse 10 "1st surrogate pair byte not continued by 2nd" ∧ s'.f_str_surrogate_prev = u) := by
    rw [Ensures, decode_string (closed_unit unit (.plain plain.2.2 plain.2.1 .nil))]
    refine (ensures_bind _ _).mpr (f_str_between_substitute (printable_unit unit ?_) rfl ?_)
    · intro y member
      exact List.mem_singleton.mp member ▸ plain.1
    have digits := codeUnit_plain unit
    simp only [List.forall_mem_cons] at digits
    obtain ⟨ha, hb, hc, hd, -⟩ := digits
    have taken : ([a, b, c, d, x].takeWhile (· ≠ 92)).take 5 = [a, b, c, d, x] := by
      simp [ha.2.2, hb.2.2, hc.2.2, hd.2.2, plain.2.2]
    rw [substitute_escaped, taken]
    have torn := f_str_subst_torn (s := { s with pos := 10, rec_depth := 0 }) (x := x) unit first clean.prev
    refine (ensures_bind _ _).mpr (torn.mono (fun _ _ => False.elim) ?_)
    rintro e s' ⟨rfl, rfl⟩
    exact ⟨rfl, rfl⟩
  obtain ⟨e, s', ran, rfl, prev⟩ := fails.fails
  exact ⟨s', prev, ran⟩

theorem lex_second (unit : codeUnit a b c d = some u) : lex [92, 117, a, b, c, d] = some [.unit u] := by
  rw [lex_unit, unit, lex]
  rfl

variable (num) in
/-- A string that is the second half of a pair, while the first one is waiting. -/
theorem decode_second (waiting : IsFirst s.f_str_surrogate_prev) (unit : codeUnit a b c d = some u)
    (second : IsSecond u) : ∃ s', decode num (34 :: ([92, 117, a, b, c, d] ++ [34])) s =
      .ok (.string (utf8 (pair s.f_str_surrogate_prev u))) s' := by
  have value : assembled s.f_str_surrogate_prev [.unit u] = some (utf8 (pair s.f_str_surrogate_prev u)) := by
    have first_ne : s.f_str_surrogate_prev ≠ 0 := by
      intro zero
      rw [zero] at waiting
      exact absurd waiting.1 (by decide)
    rw [assembled_second second first_ne, assembled, if_pos rfl]
    simp
  have printable := printable_unit unit (fun _ member => absurd member List.not_mem_nil)
  have takes : Ensures (decode num (34 :: ([92, 117, a, b, c, d] ++ [34]))) s
      (fun v _ => v = .string (utf8 (pair s.f_str_surrogate_prev u))) (fun _ _ => False) := by
    rw [Ensures, decode_string (closed_unit unit .nil)]
    refine (ensures_bind _ _).mpr (f_str_between_substitute printable rfl ?_)
    refine (substitute_ensures (closed_unit unit .nil) printable (.inr ?_)).mono ?_ ?_
    · exact waiting
    · rintro out s'' ⟨same, ps, found', result⟩
      cases (lex_second unit).symm.trans found'
      change assembled s.f_str_surrogate_prev _ = _ at result
      rw [value] at result
      split_ifs at result with nothing
      obtain rfl : utf8 (pair s.f_str_surrogate_prev u) = out := Option.some.inj result
      have pos : s''.pos = 9 := by
        rw [same]
        rfl
      refine ⟨nothing, (ensures_bind _ _).mpr ((ensures_bind _ _).mpr
        ((ensures_ite _ _ _).mpr ⟨fun more => ?_, fun _ => rfl⟩))⟩
      change matchSpaces _ s''.pos - 1 ≠ _ at more
      rw [pos] at more
      exact more rfl
    · rintro e s'' ⟨-, none_⟩
      have missing := none_ _ (lex_second unit)
      change assembled s.f_str_surrogate_prev _ = _ at missing
      rw [value] at missing
      cases missing
  obtain ⟨v, s', ran, rfl⟩ := takes.returns
  exact ⟨s', ran⟩

/-- What is left of a text that fails between two halves is the first half of the next text, which is then taken
although it is no document. -/
theorem session_torn {e : Error} {s' : State} (failed : decode num json s = .error e s')
    (waiting : IsFirst s'.f_str_surrogate_prev) (unit : codeUnit a b c d = some u) (second : IsSecond u) :
    session num [json, 34 :: ([92, 117, a, b, c, d] ++ [34])] s =
        [.error e, .ok (.string (utf8 (pair s'.f_str_surrogate_prev u)))] ∧
      ∀ v, ¬Document num Accepted 1000 v (34 :: ([92, 117, a, b, c, d] ++ [34])) := by
  constructor
  · obtain ⟨s'', takes⟩ := decode_second num waiting unit second
    simp only [session, failed, takes]
  · apply not_document_string (closed_unit unit .nil)
    rintro t ⟨ps, found, result⟩
    cases (lex_second unit).symm.trans found
    rw [assembled, if_neg fun isFirst => Nat.not_lt.mpr second.1 isFirst.2, if_pos second, if_pos rfl] at result
    cases result

/-- A first half, a plain character, and a second half in the next text. -/
theorem session_torn_least :
    session (⟨id, Neg.neg⟩ : Numbers ℚ) [34 :: ([92, 117, 68, 56, 48, 48, 97] ++ [34]),
        34 :: ([92, 117, 68, 67, 48, 48] ++ [34])] {} =
        [.error (.parse 10 "1st surrogate pair byte not continued by 2nd"),
          .ok (.string (utf8 (pair 0xD800 0xDC00)))] ∧
      ∀ v, ¬Document (⟨id, Neg.neg⟩ : Numbers ℚ) Accepted 1000 v (34 :: ([92, 117, 68, 67, 48, 48] ++ [34])) := by
  have unit : codeUnit 68 56 48 48 = some 0xD800 := by decide
  have unit' : codeUnit 68 67 48 48 = some 0xDC00 := by decide
  have plain : Plain 97 := ⟨by decide, by decide, by decide⟩
  obtain ⟨s', prev, failed⟩ := decode_torn (⟨id, Neg.neg⟩ : Numbers ℚ) clean_initial unit (by decide) plain
  have waiting : IsFirst s'.f_str_surrogate_prev := by
    rw [prev]
    decide
  rw [← prev]
  exact session_torn failed waiting unit' (by decide)

end Halves

end OmniaJit.Vendor.LunaJson
