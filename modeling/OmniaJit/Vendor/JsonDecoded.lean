import OmniaJit.Vendor.JsonGrammar

/-! # What is decoded

The decoder returns a value if and only if the text is a document of the grammar that stands for it, with strings
as it takes them and a thousand levels of nesting. It does not run out of calls, its loops end, and what it keeps
for the next text is right after each text, unless a string failed in the middle of a surrogate pair.
-/

namespace OmniaJit.Vendor.LunaJson

open OmniaJit.Data OmniaJit.Data.Json OmniaJit.Machine OmniaJit.Machine.Program

variable {ν : Type} {num : Numbers ν} {json : Json} {s : State} {text : Text} {newpos : ℕ}

section Table

/-- An entry of the table is the function for the character, or there is no value. -/
theorem dispatcher_ensures (position : At json newpos text) : Ensures (dispatcher (byte json newpos)) s
    (fun f s' => s' = s ∧ ∃ c t, text = c :: t ∧ f = jump c)
    (fun e s' => s' = s ∧ e = .parse s.pos "unexpected termination" ∧ ∀ c t, text = c :: t → ¬c < 128) := by
  rw [position.byte]
  cases text with
  | nil =>
    refine ⟨rfl, rfl, fun c t same => ?_⟩
    cases same
  | cons c text =>
    refine (ensures_ite _ _ _).mpr ⟨fun low => ⟨rfl, c, text, rfl, rfl⟩, fun high => ⟨rfl, rfl, fun d t same => ?_⟩⟩
    cases same
    exact high

/-- The functions of the table read values, behind their first character. -/
def Calls (json : Json) (call : Fn → M (Value ν)) (inner : Value ν → Text → Prop) (depth : ℕ) : Prop :=
  ∀ s front c text, Clean s → s.rec_depth = depth → json = front ++ c :: text → s.pos = front.length + 2 →
    Reads json (call (jump c)) s (Front inner (c :: text))

variable {call : Fn → M (Value ν)} {inner : Value ν → Text → Prop} {depth : ℕ}

/-- A value is read from its first character on. -/
def valueAt (json : Json) (call : Fn → M (Value ν)) (newpos : ℕ) : M (Value ν) := do
  let f ← dispatcher (byte json newpos)
  setPos (newpos + 1)
  call f

theorem reads_valueAt (calls : Calls json call inner depth)
    (heads : ∀ v t, inner v t → ∃ c t', t = c :: t' ∧ jump c ≠ .err)
    (clean : Clean s) (level : s.rec_depth = depth) (position : At json newpos text) :
    Reads json (valueAt json call newpos) s (Front inner text) := by
  refine (ensures_bind _ _).mpr ((dispatcher_ensures position).mono ?_ ?_)
  · rintro _ s' ⟨rfl, c, t, rfl, rfl⟩
    obtain ⟨front, split, pos⟩ := position
    refine (ensures_bind _ _).mpr (calls _ front c t ⟨clean.prev, clean.keycache⟩ level split ?_)
    exact congrArg (· + 1) pos
  · rintro e s' ⟨rfl, rfl, none_⟩
    refine ⟨clean.leaves _ _, ?_⟩
    rintro v r ⟨t, same, stands, -⟩
    obtain ⟨c, t', rfl, entry⟩ := heads v t stands
    exact entry (jump_high (none_ c _ same))

end Table

section Loops

variable {α β : Type} {close : UInt8} {errmsg : String}

/-- What the loops do behind each thing. -/
def afterThing (json : Json) (close : UInt8) (errmsg : String) (again : ℕ → β → M β) (done : β) : M β := do
  let s ← get
  match matchBetween json 44 s.pos with
  | some newpos => again newpos done
  | none =>
    match matchClose json close s.pos with
    | none => decode_error errmsg
    | some newpos => do
      setPos newpos
      pure done

variable {item : α → Text → Prop} {stop : α → Text → Prop} {depth : ℕ}

variable (stop) in
/-- A loop that reads one thing after the other reads all of them. -/
theorem reads_loop (add : β → α → β) (loop : ℕ → ℕ → β → M β) (thing : ℕ → M α)
    (step : ∀ k newpos done, loop (k + 1) newpos done =
      thing newpos >>= fun a => afterThing json close errmsg (loop k) (add done a))
    (reads : ∀ s newpos text, Clean s → s.rec_depth = depth → At json newpos text →
      Reads json (thing newpos) s (FrontWith item stop text))
    (heads : ∀ a t, item a t → ∃ c t', t = c :: t' ∧ ¬isSpace c)
    (stops : ∀ a w c r, Spaces w → c = 44 ∨ c = close → stop a (w ++ c :: r)) (bracket : ¬isSpace close)
    (other : close ≠ 44) {k : ℕ} (room : text.length < k) (clean : Clean s) (level : s.rec_depth = depth)
    (position : At json newpos text) (done : β) : Reads json (loop k newpos done) s
      (fun all r => ∃ as, all = as.foldl add done ∧ ListedFront close item text as r) := by
  induction k generalizing s newpos text done with
  | zero => exact absurd room (Nat.not_lt_zero _)
  | succ k ih =>
    rw [step]
    refine (reads s newpos text clean level position).bind (fun a r' all r =>
      (∃ r'', r'.dropWhile isSpace = 44 :: r'' ∧ ∃ as', all = as'.foldl add (add done a) ∧
          ListedFront close item (r''.dropWhile isSpace) as' r) ∨
        r'.dropWhile isSpace = close :: r ∧ all = add done a) ?_ ?_
    · intro a r' s' clean' level' position' found
      refine (ensures_bind _ _).mpr (ensures_get.mpr ?_)
      rcases position'.between 44 with ⟨newpos', r'', comma, split, behind⟩ | ⟨missing, noComma⟩
      · have shorter : (r''.dropWhile isSpace).length < k := by
          obtain ⟨t, rfl, -, -⟩ := found
          have dropped := (List.dropWhile_sublist isSpace (l := r')).length_le
          have dropped' := (List.dropWhile_sublist isSpace (l := r'')).length_le
          rw [split, List.length_cons] at dropped
          rw [List.length_append] at room
          omega
        rw [comma]
        refine (ih shorter clean' (level'.trans level) behind (add done a)).congr fun all r => ?_
        constructor
        · rintro (⟨rest, same, as, rfl, others⟩ | ⟨same, -⟩)
          · cases split.symm.trans same
            exact ⟨as, rfl, others⟩
          · exact absurd (List.cons.inj (same.symm.trans split)).1 other
        · rintro ⟨as, rfl, others⟩
          exact .inl ⟨r'', split, as, rfl, others⟩
      · rw [missing]
        simp only
        rcases position'.close close with ⟨newpos', r'', bracket, split, behind⟩ | ⟨missing', noBracket⟩
        · rw [bracket]
          refine (ensures_bind _ _).mpr ⟨⟨clean'.prev, clean'.keycache⟩, rfl, r'', behind, .inr ⟨split, rfl⟩, ?_⟩
          rintro all r (⟨rest, same, -⟩ | ⟨same, rfl⟩)
          · exact absurd same (noComma rest)
          · exact ⟨rfl, (List.cons.inj (same.symm.trans split)).2⟩
        · rw [missing']
          refine Reads.error clean' errmsg ?_
          rintro all r (⟨rest, same, -⟩ | ⟨same, -⟩)
          · exact noComma rest same
          · exact noBracket r same
    · intro all r
      constructor
      · rintro ⟨as, rfl, listed⟩
        obtain ⟨a, r', found, ⟨r'', split, as', rfl, others⟩ | ⟨split, rfl⟩⟩ :=
          (listedFront_iff heads stops bracket).mp listed
        · exact ⟨a, r', found, .inl ⟨r'', split, as', rfl, others⟩⟩
        · exact ⟨a, r', found, .inr ⟨split, rfl⟩⟩
      · rintro ⟨a, r', found, ⟨r'', split, as', rfl, others⟩ | ⟨split, rfl⟩⟩
        · exact ⟨a :: as', rfl, (listedFront_iff heads stops bracket).mpr
            ⟨a, r', found, .inl ⟨r'', split, as', rfl, others⟩⟩⟩
        · exact ⟨[a], rfl, (listedFront_iff heads stops bracket).mpr ⟨a, r', found, .inr ⟨split, rfl⟩⟩⟩

end Loops

section Nesting

variable {β : Type} {close : UInt8} {loop : ℕ → M β} {empty : β} {wrap : β → Value ν} {depth : ℕ}

/-- What arrays and objects have in common. -/
def between (json : Json) (close : UInt8) (loop : ℕ → M β) (empty : β) (wrap : β → Value ν) : M (Value ν) := do
  enter
  modify fun s => { s with pos := matchSpaces json s.pos }
  let s ← get
  let inside ← if byte json s.pos = some close then do
      setPos (s.pos + 1)
      pure empty
    else loop s.pos
  leave
  pure (wrap inside)

/-- The level that is entered is left. -/
theorem reads_between {P : β → Text → Prop} (clean : Clean s) (level : s.rec_depth = depth) (room : depth < 1000)
    (position : At json s.pos text)
    (reads : ∀ s', Clean s' → s'.rec_depth = depth + 1 → At json s'.pos (text.dropWhile isSpace) →
      Reads json (loop s'.pos) s' P)
    (apart : ∀ inside r, P inside r → (text.dropWhile isSpace).head? ≠ some close) :
    Reads json (between json close loop empty wrap) s (fun v r =>
      (v = wrap empty ∧ text.dropWhile isSpace = close :: r) ∨ ∃ inside, v = wrap inside ∧ P inside r) := by
  let s' : State := { s with rec_depth := s.rec_depth + 1, pos := matchSpaces json s.pos }
  have inside : ¬s.rec_depth + 1 > 1000 := by omega
  have clean' : Clean s' := ⟨clean.prev, clean.keycache⟩
  have level' : s'.rec_depth = depth + 1 := congrArg (· + 1) level
  have position' : At json s'.pos (text.dropWhile isSpace) := position.spaces
  refine (ensures_bind _ _).mpr ((ensures_bind _ _).mpr ((ensures_ite _ _ _).mpr
    ⟨fun deep => absurd deep inside, fun _ => ?_⟩))
  change Ensures (if byte json s'.pos = some close then _ else loop s'.pos >>= _) s' _ _
  rw [position'.byte]
  refine (ensures_ite _ _ _).mpr ⟨fun found => ?_, fun other => ?_⟩
  · obtain ⟨r, split⟩ := List.head?_eq_some_iff.mp found
    rw [split] at position'
    refine (ensures_bind _ _).mpr ⟨⟨clean.prev, clean.keycache⟩, rfl, r, position'.cons, .inl ⟨rfl, split⟩, ?_⟩
    rintro v r' (⟨rfl, same⟩ | ⟨inside, -, holds⟩)
    · exact ⟨rfl, (List.cons.inj (same.symm.trans split)).2⟩
    · exact absurd found (apart inside r' holds)
  · have none_ (v : Value ν) (r : Text) : ¬(v = wrap empty ∧ text.dropWhile isSpace = close :: r) :=
      fun both => other (by rw [both.2]; rfl)
    refine (ensures_bind _ _).mpr ((reads s' clean' level' position').mono ?_ ?_)
    · rintro inside s'' ⟨clean'', depth', r, position'', holds, only⟩
      refine (ensures_bind _ _).mpr ⟨⟨clean''.prev, clean''.keycache⟩, ?_, r, position'',
        .inr ⟨inside, rfl, holds⟩, ?_⟩
      · exact congrArg (· - 1) depth'
      · rintro v r' (bracket | ⟨inside', rfl, holds'⟩)
        · exact absurd bracket (none_ v r')
        · obtain ⟨rfl, rfl⟩ := only inside' r' holds'
          exact ⟨rfl, rfl⟩
    · rintro e s'' ⟨leaves, missing⟩
      refine ⟨leaves, ?_⟩
      rintro v r (bracket | ⟨inside, -, holds⟩)
      · exact none_ v r bracket
      · exact missing inside r holds

end Nesting

section Arrays

variable {call : Fn → M (Value ν)} {inner : Value ν → Text → Prop} {depth : ℕ}

theorem f_ary_loop_succ (k newpos : ℕ) (ary : List (Value ν)) : f_ary_loop json call (k + 1) newpos ary =
    valueAt json call newpos >>= fun v =>
      afterThing json 93 "no closing bracket of an array" (f_ary_loop json call k) (ary ++ [v]) := by
  simp only [f_ary_loop, valueAt, bind_assoc]
  rfl

theorem foldl_append (ary vs : List (Value ν)) : vs.foldl (fun ary v => ary ++ [v]) ary = ary ++ vs := by
  induction vs generalizing ary with
  | nil => simp
  | cons v vs ih => simp [ih]

theorem value_stops (v : Value ν) (w : Text) (c : UInt8) (r : Text) (spaces : Spaces w)
    (punctuation : c = 44 ∨ c = 93 ∨ c = 125) : Stops v (w ++ c :: r) :=
  fun _ => ends_spaces spaces c (by rcases punctuation with rfl | rfl | rfl <;> decide)

theorem listedFront_head {α : Type} {close bracket : UInt8} {item : α → Text → Prop} {as : List α} {r : Text}
    (heads : ∀ a t, item a t → ∃ c t', t = c :: t' ∧ c ≠ bracket) (listed : ListedFront close item text as r) :
    text.head? ≠ some bracket := by
  obtain ⟨t, rfl, listed⟩ := listed
  cases listed with
  | last one spaces =>
    obtain ⟨c, t, rfl, other⟩ := heads _ _ one
    exact fun head => other (Option.some.inj head)
  | more one spaces spaces' others =>
    obtain ⟨c, t, rfl, other⟩ := heads _ _ one
    exact fun head => other (Option.some.inj head)

/-- `f_ary`, behind the bracket. -/
theorem reads_f_ary (calls : Calls json call inner (depth + 1))
    (heads : ∀ v t, inner v t → ∃ c t', t = c :: t' ∧ jump c ≠ .err) (clean : Clean s) (level : s.rec_depth = depth)
    (room : depth < 1000) (position : At json s.pos text) :
    Reads json (f_ary json call) s (Front (Nested Accepted inner) (91 :: text)) := by
  have spaces : ∀ v t, inner v t → ∃ c t', t = c :: t' ∧ ¬isSpace c := by
    intro v t stands
    obtain ⟨c, t', same, entry⟩ := heads v t stands
    exact ⟨c, t', same, fun space => entry (jump_space space)⟩
  have brackets : ∀ v t, inner v t → ∃ c t', t = c :: t' ∧ c ≠ 93 := by
    intro v t stands
    obtain ⟨c, t', same, entry⟩ := heads v t stands
    refine ⟨c, t', same, ?_⟩
    rintro rfl
    exact entry rfl
  have loop (s' : State) (clean' : Clean s') (level' : s'.rec_depth = depth + 1)
      (position' : At json s'.pos (text.dropWhile isSpace)) :
      Reads json (f_ary_loop json call (json.length + 1) s'.pos []) s'
        (ListedFront 93 inner (text.dropWhile isSpace)) := by
    have short : (text.dropWhile isSpace).length < json.length + 1 := by
      obtain ⟨front, split, -⟩ := position'
      rw [split, List.length_append]
      omega
    refine (reads_loop Stops _ _ _ f_ary_loop_succ
      (fun s newpos text clean level position => reads_valueAt calls heads clean level position)
      spaces (fun v w c r spaces punctuation => value_stops v w c r spaces (by tauto)) (by decide) (by decide)
      short clean' level' position' []).congr fun vs r => ?_
    simp only [foldl_append, List.nil_append, exists_eq_left']
  change Reads json (between json 93 (fun newpos => f_ary_loop json call (json.length + 1) newpos []) [] .array) s _
  exact (reads_between clean level room position loop fun vs r => listedFront_head brackets).congr
    fun v r => array_front_iff spaces

end Arrays

section Objects

variable {call : Fn → M (Value ν)} {inner : Value ν → Text → Prop} {depth : ℕ}

/-- A colon and a character, which the function in the table belongs to. -/
def ColonThen (json : Json) (r : Text) (found : Fn × ℕ) : Prop :=
  ∃ r' c t front, r.dropWhile isSpace = 58 :: r' ∧ r'.dropWhile isSpace = c :: t ∧ found.1 = jump c ∧
    json = front ++ c :: t ∧ found.2 = front.length + 2

/-- A colon and no value. -/
def NoValue (r : Text) : Prop :=
  ∀ r' c t, r.dropWhile isSpace = 58 :: r' → r'.dropWhile isSpace = c :: t → jump c = .err

variable {r : Text}

theorem colonAnywhere_ensures (position : At json s.pos r) : Ensures (colonAnywhere json) s
    (fun found s' => s' = s ∧ ColonThen json r found)
    (fun e s' => s' = s ∧ (∃ errmsg, e = .parse s.pos errmsg) ∧ NoValue r) := by
  refine (ensures_bind _ _).mpr (ensures_get.mpr ?_)
  rcases position.between 58 with ⟨newpos, r', found, split, behind⟩ | ⟨missing, none_⟩
  · rw [found]
    refine (ensures_bind _ _).mpr ((dispatcher_ensures behind).mono ?_ ?_)
    · rintro f s' ⟨rfl, c, t, head, rfl⟩
      obtain ⟨front, same, pos⟩ := behind
      exact ⟨rfl, r', c, t, front, split, head, rfl, by rw [same, head], congrArg (· + 1) pos⟩
    · rintro e s' ⟨rfl, rfl, missing⟩
      refine ⟨rfl, ⟨_, rfl⟩, fun r'' c t split' head => ?_⟩
      cases split.symm.trans split'
      exact jump_high (missing c t head)
  · rw [missing]
    exact ⟨rfl, ⟨_, rfl⟩, fun r' c t split head => absurd split (none_ r')⟩

/-- An entry of the table for what comes behind the colon, which is a space, a value or neither. -/
theorem colonFirst_entry {r' rest : Text} (position : At json newpos rest)
    (colon : r.dropWhile isSpace = 58 :: r') (spaces : r'.dropWhile isSpace = rest.dropWhile isSpace) :
    Ensures (do
      let f ← dispatcher (byte json newpos)
      pure (f, newpos + 1)) s
      (fun found s' => s' = s ∧ (found.1 = .err ∨ ColonThen json r found))
      (fun e s' => s' = s ∧ (∃ errmsg, e = .parse s.pos errmsg) ∧ NoValue r) := by
  refine (ensures_bind _ _).mpr ((dispatcher_ensures position).mono ?_ ?_)
  · rintro _ s' ⟨rfl, c, t, rfl, rfl⟩
    refine ⟨rfl, ?_⟩
    by_cases entry : jump c = .err
    · exact .inl entry
    · have space : ¬isSpace c := fun space => entry (jump_space space)
      rw [List.dropWhile_cons_of_neg space] at spaces
      obtain ⟨front, same, pos⟩ := position
      exact .inr ⟨r', c, t, front, colon, spaces, rfl, same, congrArg (· + 1) pos⟩
  · rintro e s' ⟨rfl, rfl, missing⟩
    refine ⟨rfl, ⟨_, rfl⟩, fun r'' c t split head => ?_⟩
    cases colon.symm.trans split
    cases rest with
    | nil => cases head.symm.trans spaces
    | cons d rest =>
      have high := jump_high (missing d rest rfl)
      have other : ¬isSpace d := forall_byte (P := fun c => ¬c < 128 → ¬isSpace c) (by decide +kernel) d
        (missing d rest rfl)
      rw [List.dropWhile_cons_of_neg other] at spaces
      cases head.symm.trans spaces
      exact high

theorem colonFirst_ensures (position : At json s.pos r) : Ensures (colonFirst json) s
    (fun found s' => s' = s ∧ (found.1 = .err ∨ ColonThen json r found))
    (fun e s' => s' = s ∧ (∃ errmsg, e = .parse s.pos errmsg) ∧ NoValue r) := by
  refine (ensures_bind _ _).mpr (ensures_get.mpr ((ensures_ite _ _ _).mpr
    ⟨fun colon => ?_, fun other => ⟨rfl, .inl rfl⟩⟩))
  rw [position.byte] at colon
  obtain ⟨r', rfl⟩ := List.head?_eq_some_iff.mp colon
  have split : (58 :: r').dropWhile isSpace = 58 :: r' := rfl
  have behind := position.cons
  refine (ensures_ite _ _ _).mpr ⟨fun other => ?_, fun space => ?_⟩
  · exact colonFirst_entry behind split rfl
  · rw [not_not, behind.byte] at space
    obtain ⟨rest, rfl⟩ := List.head?_eq_some_iff.mp space
    exact colonFirst_entry behind.cons split rfl

/-- Both ways behind a key lead to the same place. -/
theorem afterKey_ensures (position : At json s.pos r) : Ensures (afterKey json) s
    (fun found s' => s' = s ∧ ColonThen json r found)
    (fun e s' => s' = s ∧ (∃ errmsg, e = .parse s.pos errmsg) ∧ NoValue r) := by
  refine (ensures_bind _ _).mpr ((colonFirst_ensures position).mono ?_ fun e s' failed => failed)
  rintro found s' ⟨rfl, result⟩
  refine (ensures_ite _ _ _).mpr ⟨fun _ => colonAnywhere_ensures position, fun entry => ?_⟩
  exact ⟨rfl, result.resolve_left entry⟩

/-- A key and a value. -/
def memberAt (json : Json) (call : Fn → M (Value ν)) (newpos : ℕ) : M (Text × Value ν) := do
  if byte json newpos ≠ some 34 then decode_error "not key"
  else do
    setPos (newpos + 1)
    let key ← f_str json true
    let (f, newpos) ← afterKey json
    setPos newpos
    let v ← call f
    pure (key, v)

theorem f_obj_loop_succ (k newpos : ℕ) (obj : List (Text × Value ν)) : f_obj_loop json call (k + 1) newpos obj =
    memberAt json call newpos >>= fun m =>
      afterThing json 125 "no closing bracket of an object" (f_obj_loop json call k) (put m.1 m.2 obj) := by
  rw [f_obj_loop, memberAt]
  split_ifs
  · rfl
  · simp only [bind_assoc, pure_bind]
    rfl

/-- The value behind the key and the colon. -/
theorem reads_memberRest (calls : Calls json call inner depth)
    (heads : ∀ v t, inner v t → ∃ c t', t = c :: t' ∧ jump c ≠ .err) (clean : Clean s) (level : s.rec_depth = depth)
    (position : At json s.pos r) (key : Text) :
    Reads json (afterKey json >>= fun found => setPos found.2 >>= fun _ => call found.1 >>= fun v => pure (key, v)) s
      (fun m r' => m.1 = key ∧ ∃ r'', r.dropWhile isSpace = 58 :: r'' ∧
        Front inner (r''.dropWhile isSpace) m.2 r') := by
  refine (ensures_bind _ _).mpr ((afterKey_ensures position).mono ?_ ?_)
  · rintro ⟨_, _⟩ s' ⟨rfl, behind, c, t, front, colon, head, rfl, split, rfl⟩
    have value := calls { s' with pos := front.length + 2 } front c t ⟨clean.prev, clean.keycache⟩ level split rfl
    refine (ensures_bind _ _).mpr ((ensures_bind _ _).mpr (value.mono ?_ ?_))
    · rintro v s'' ⟨clean', level', r', position', found, only⟩
      refine ⟨clean', level', r', position', ⟨rfl, behind, colon, by rwa [head]⟩, ?_⟩
      rintro ⟨key', v'⟩ r'' ⟨rfl, behind', colon', found'⟩
      cases colon.symm.trans colon'
      rw [head] at found'
      obtain ⟨rfl, rfl⟩ := only v' r'' found'
      exact ⟨rfl, rfl⟩
    · rintro e s'' ⟨leaves, none_⟩
      refine ⟨leaves, ?_⟩
      rintro ⟨key', v'⟩ r'' ⟨rfl, behind', colon', found'⟩
      cases colon.symm.trans colon'
      rw [head] at found'
      exact none_ v' r'' found'
  · rintro e s' ⟨rfl, ⟨errmsg, rfl⟩, none_⟩
    refine ⟨clean.leaves _ _, ?_⟩
    rintro ⟨key', v'⟩ r' ⟨rfl, r'', colon, t, split, stands, -⟩
    obtain ⟨c, t', rfl, entry⟩ := heads v' t stands
    exact entry (none_ r'' c _ colon split)

theorem reads_memberAt (calls : Calls json call inner depth)
    (heads : ∀ v t, inner v t → ∃ c t', t = c :: t' ∧ jump c ≠ .err)
    (clean : Clean s) (level : s.rec_depth = depth) (position : At json newpos text) :
    Reads json (memberAt json call newpos) s (FrontWith (Member Accepted inner) (fun m => Stops m.2) text) := by
  have spaces : ∀ v t, inner v t → ∃ c t', t = c :: t' ∧ ¬isSpace c := by
    intro v t stands
    obtain ⟨c, t', same, entry⟩ := heads v t stands
    exact ⟨c, t', same, fun space => entry (jump_space space)⟩
  rw [memberAt, position.byte]
  refine (ensures_ite _ _ _).mpr ⟨fun other => Reads.error clean _ fun m r found => ?_, fun quote => ?_⟩
  · obtain ⟨text', r', r'', rfl, -⟩ := (member_front_iff spaces).mp found
    exact other rfl
  · rw [not_not] at quote
    obtain ⟨text', rfl⟩ := List.head?_eq_some_iff.mp quote
    obtain ⟨front, split, pos⟩ := position
    refine (ensures_bind _ _).mpr (Reads.bind (fun key r m r' => m.1 = key ∧ ∃ r'', r.dropWhile isSpace = 58 :: r'' ∧
      Front inner (r''.dropWhile isSpace) m.2 r') (reads_f_str true ⟨clean.prev, clean.keycache⟩ split
        (congrArg (· + 1) pos)) ?_ ?_)
    · intro key r s' clean' level' position' _
      exact reads_memberRest calls heads clean' (level'.trans level) position' key
    · intro m r
      rw [member_front_iff spaces]
      constructor
      · rintro ⟨text'', r', r'', same, quoted, colon, found⟩
        cases same
        exact ⟨m.1, r', quoted, rfl, r'', colon, found⟩
      · rintro ⟨key, r', quoted, rfl, r'', colon, found⟩
        exact ⟨text', r', r'', rfl, quoted, colon, found⟩

/-- `f_obj`, behind the bracket. -/
theorem reads_f_obj (calls : Calls json call inner (depth + 1))
    (heads : ∀ v t, inner v t → ∃ c t', t = c :: t' ∧ jump c ≠ .err) (clean : Clean s) (level : s.rec_depth = depth)
    (room : depth < 1000) (position : At json s.pos text) :
    Reads json (f_obj json call) s (Front (Nested Accepted inner) (123 :: text)) := by
  have brackets : ∀ (m : Text × Value ν) t, Member Accepted inner m t → ∃ c t', t = c :: t' ∧ c ≠ 125 := by
    intro m t member
    cases member
    exact ⟨34, _, rfl, by decide⟩
  have loop (s' : State) (clean' : Clean s') (level' : s'.rec_depth = depth + 1)
      (position' : At json s'.pos (text.dropWhile isSpace)) :
      Reads json (f_obj_loop json call (json.length + 1) s'.pos []) s' (fun obj r =>
        ∃ ms, obj = putAll ms ∧ ListedFront 125 (Member Accepted inner) (text.dropWhile isSpace) ms r) := by
    have short : (text.dropWhile isSpace).length < json.length + 1 := by
      obtain ⟨front, split, -⟩ := position'
      rw [split, List.length_append]
      omega
    exact reads_loop (fun m => Stops m.2) (fun obj m => put m.1 m.2 obj) _ _ f_obj_loop_succ
      (fun s newpos text clean level position => reads_memberAt calls heads clean level position) member_head
      (fun m w c r spaces punctuation => value_stops m.2 w c r spaces (by tauto)) (by decide) (by decide)
      short clean' level' position' []
  change Reads json (between json 125 (fun newpos => f_obj_loop json call (json.length + 1) newpos []) [] .object) s _
  refine (reads_between clean level room position loop fun obj r found => ?_).congr fun v r =>
    object_front_iff.trans ?_
  · obtain ⟨ms, -, listed⟩ := found
    exact listedFront_head brackets listed
  · refine or_congr Iff.rfl ?_
    constructor
    · rintro ⟨ms, rfl, listed⟩
      exact ⟨_, rfl, ms, rfl, listed⟩
    · rintro ⟨_, rfl, ms, rfl, listed⟩
      exact ⟨ms, rfl, listed⟩

end Objects

section Values

variable {v : Value ν} {c : UInt8} {r : Text} {front : Text}

/-- The first character is part of what is found. -/
theorem front_cons_iff {J : Value ν → Text → Prop} (nonempty : ∀ v, ¬J v []) :
    Front J (c :: text) v r ↔ ∃ t, text = t ++ r ∧ J v (c :: t) ∧ Stops v r := by
  constructor
  · rintro ⟨t, same, holds, stops⟩
    cases t with
    | nil => exact absurd holds (nonempty v)
    | cons d t =>
      cases same
      exact ⟨t, rfl, holds, stops⟩
  · rintro ⟨t, rfl, holds, stops⟩
    exact ⟨c :: t, rfl, holds, stops⟩

theorem numerals_nonempty (mns : Bool) (v : Value ν) : ¬Numerals num mns v [] := by
  rintro ⟨n, valid, same, -⟩
  obtain ⟨c, t, text, -⟩ := numeral_head valid
  cases same.trans text

/-- A value that is not nested, behind its first character. -/
theorem front_scalar_iff : Front (Scalar num Accepted) (c :: text) v r ↔
    ∃ t, text = t ++ r ∧ ScalarTail num c v t (jump c) ∧ Stops v r := by
  simp only [← scalar_cons_iff]
  refine front_cons_iff fun v scalar => ?_
  obtain ⟨c, t, same, -⟩ := stands_head (n := 0) scalar
  cases same

/-- A string behind its quote. -/
theorem reads_string (clean : Clean s) (split : json = front ++ 34 :: text) (pos : s.pos = front.length + 2) :
    Reads json (f_str json false >>= fun t => pure (.string t)) s (fun (v : Value ν) r => ∃ t, text = t ++ r ∧
      (∃ body s, t = body ++ [34] ∧ Accepted body s ∧ v = .string s) ∧ Stops v r) := by
  refine Reads.bind (fun t r' v r => v = .string t ∧ r = r') (reads_f_str false clean split pos) ?_ ?_
  · rintro t r' s' clean' - position' -
    refine Reads.pure clean' position' ⟨rfl, rfl⟩ ?_
    rintro v r ⟨rfl, rfl⟩
    exact ⟨rfl, rfl⟩
  · intro v r
    constructor
    · rintro ⟨_, rfl, ⟨body, t, rfl, accepted, rfl⟩, -⟩
      exact ⟨t, r, ⟨body, by simp, accepted⟩, rfl, rfl⟩
    · rintro ⟨t, r', ⟨body, rfl, accepted⟩, rfl, rfl⟩
      exact ⟨body ++ [34], by simp, ⟨body, t, rfl, accepted, rfl⟩, by simp [Stops]⟩

/-- The functions of the table that do not call others. -/
theorem reads_call_flat (n : ℕ) (clean : Clean s) (split : json = front ++ c :: text) (pos : s.pos = front.length + 2)
    (array : jump c ≠ .ary) (object : jump c ≠ .obj) :
    Reads json (call num json n (jump c)) s (Front (Scalar num Accepted) (c :: text)) := by
  have before : At json (s.pos - 1) (c :: text) := ⟨front, split, congrArg (· - 1) pos⟩
  have position : At json s.pos text := by
    have behind := before.cons
    rwa [show s.pos - 1 + 1 = s.pos by omega] at behind
  have literal_ (tail : Text) (v : Value ν) (plain : ¬∃ n, v = .number n) : Reads json (literal json tail v) s
      (fun w r => ∃ t, text = t ++ r ∧ (w = v ∧ t = tail) ∧ Stops w r) := by
    refine (reads_literal c plain clean position).congr fun w r => ?_
    rw [front_cons_iff fun v none_ => by cases none_.2]
    simp only [List.cons.injEq, true_and]
  have begins := begins_jump c
  refine Reads.congr ?_ fun v r => front_scalar_iff
  cases found : jump c with
  | err =>
    rw [show call num json n .err = decode_error "invalid value" by cases n <;> rfl]
    exact Reads.error clean _ fun v r other => by
      obtain ⟨t, -, none_, -⟩ := other
      exact none_
  | str =>
    rw [found] at begins
    cases begins
    rw [show call num json n .str = f_str json false >>= fun t => pure (.string t) by cases n <;> rfl]
    exact reads_string clean split pos
  | mns =>
    rw [show call num json n .mns = f_mns num json by cases n <;> rfl]
    exact reads_f_mns num clean position
  | zro =>
    rw [found] at begins
    cases begins
    rw [show call num json n .zro = f_zro num json false by cases n <;> rfl]
    exact (reads_f_zro num false clean position).congr fun v r => (front_cons_iff (numerals_nonempty false)).symm
  | num =>
    rw [found] at begins
    rw [show call num json n .num = f_num num json false by cases n <;> rfl]
    exact (reads_f_num num false clean before rfl begins).congr fun v r =>
      (front_cons_iff (numerals_nonempty false)).symm
  | fls =>
    rw [show call num json n .fls = f_fls json by cases n <;> rfl]
    exact literal_ _ _ (by simp)
  | nul =>
    rw [show call num json n .nul = f_nul json by cases n <;> rfl]
    exact literal_ _ _ (by simp)
  | tru =>
    rw [show call num json n .tru = f_tru json by cases n <;> rfl]
    exact literal_ _ _ (by simp)
  | ary => exact absurd found array
  | obj => exact absurd found object

theorem nested_head {inner : Value ν → Text → Prop} {t : Text} (nested : Nested Accepted inner v t) :
    ∃ t', t = 91 :: t' ∨ t = 123 :: t' := by
  cases nested with
  | noItems | items => exact ⟨_, .inl rfl⟩
  | noMembers | members => exact ⟨_, .inr rfl⟩

theorem front_stands_iff (n : ℕ) (array : jump c ≠ .ary) (object : jump c ≠ .obj) :
    Front (Stands num Accepted n) (c :: text) v r ↔ Front (Scalar num Accepted) (c :: text) v r := by
  cases n with
  | zero => rfl
  | succ n =>
    constructor
    · rintro ⟨t, same, flat | nested, stops⟩
      · exact ⟨t, same, flat, stops⟩
      · obtain ⟨t', rfl | rfl⟩ := nested_head nested
        · cases same
          exact absurd rfl array
        · cases same
          exact absurd rfl object
    · rintro ⟨t, same, flat, stops⟩
      exact ⟨t, same, .inl flat, stops⟩

theorem not_front_scalar (bracket : jump c = .ary ∨ jump c = .obj) :
    ¬Front (Scalar num Accepted) (c :: text) v r := by
  intro flat
  obtain ⟨t', -, tail, -⟩ := front_scalar_iff.mp flat
  rcases bracket with found | found
  · rw [found] at tail
    exact tail
  · rw [found] at tail
    exact tail

/-- A value in brackets is nested. -/
theorem front_nested_iff {n : ℕ} (bracket : jump c = .ary ∨ jump c = .obj) :
    Front (Stands num Accepted (n + 1)) (c :: text) v r ↔
      Front (Nested Accepted (Stands num Accepted n)) (c :: text) v r := by
  constructor
  · rintro ⟨t, same, flat | nested, stops⟩
    · exact absurd ⟨t, same, flat, stops⟩ (not_front_scalar bracket)
    · exact ⟨t, same, nested, stops⟩
  · rintro ⟨t, same, nested, stops⟩
    exact ⟨t, same, .inr nested, stops⟩

theorem reads_too_deep (clean : Clean s) (level : s.rec_depth = 1000) {α : Type} (more : M α) {P : α → Text → Prop}
    (none_ : ∀ v r, ¬P v r) : Reads json (enter >>= fun _ => more) s P := by
  have deep : s.rec_depth + 1 > 1000 := by omega
  have clean' : Clean { s with rec_depth := s.rec_depth + 1 } := ⟨clean.prev, clean.keycache⟩
  exact (ensures_bind _ _).mpr ((ensures_bind _ _).mpr ((ensures_ite _ _ _).mpr
    ⟨fun _ => ⟨clean'.leaves _ _, none_⟩, fun other => absurd deep other⟩))

/-- With room for the calls that are left, every value is read. -/
theorem reads_call (n : ℕ) {depth : ℕ} (left : depth + n = 1000) :
    Calls json (call num json (n + 1)) (Stands num Accepted n) depth := by
  induction n generalizing depth with
  | zero =>
    rintro s front c text clean level split pos
    have begins := begins_jump c
    by_cases array : jump c = .ary
    · rw [array]
      exact reads_too_deep clean (level.trans left) _ fun v r => not_front_scalar (.inl array)
    by_cases object : jump c = .obj
    · rw [object]
      exact reads_too_deep clean (level.trans left) _ fun v r => not_front_scalar (.inr object)
    · exact reads_call_flat 1 clean split pos array object
  | succ n ih =>
    rintro s front c text clean level split pos
    have position : At json s.pos text := by
      have behind : At json (front.length + 1 + 1) text := At.cons ⟨front, split, rfl⟩
      rwa [← pos] at behind
    have begins := begins_jump c
    have calls : Calls json (call num json (n + 1)) (Stands num Accepted n) (depth + 1) := ih (by omega)
    by_cases array : jump c = .ary
    · rw [array] at begins
      cases begins
      exact (reads_f_ary calls (fun v t => stands_head) clean level (by omega) position).congr fun v r =>
        front_nested_iff (.inl array)
    by_cases object : jump c = .obj
    · rw [object] at begins
      cases begins
      exact (reads_f_obj calls (fun v t => stands_head) clean level (by omega) position).congr fun v r =>
        front_nested_iff (.inr object)
    · exact (reads_call_flat (n + 2) clean split pos array object).congr fun v r =>
        front_stands_iff (n + 1) array object

end Values

section Documents

theorem document_iff {n : ℕ} {v : Value ν} : Document num Accepted n v json ↔
    ∃ r, Front (Stands num Accepted n) (json.dropWhile isSpace) v r ∧ Spaces r := by
  constructor
  · rintro ⟨w, t, w', spaces, stands, spaces', rfl⟩
    have head : ∀ c ∈ (t ++ w').head?, ¬isSpace c := by
      obtain ⟨c, t, rfl, other⟩ := stands_space stands
      rintro d ⟨rfl⟩
      exact other
    rw [dropWhile_spaces spaces head]
    refine ⟨w', ⟨t, rfl, stands, fun _ c head => ?_⟩, spaces'⟩
    exact forall_byte (P := fun c => isSpace c → ¬isMark c ∧ ¬isDigit c) (by decide +kernel) c
      (spaces' c (List.mem_of_mem_head? head))
  · rintro ⟨r, ⟨t, same, stands, -⟩, spaces⟩
    obtain ⟨w, spaces', split⟩ := spaces_split json
    exact ⟨w, t, r, spaces', stands, spaces, by rw [← same, ← split]⟩

/-- Only spaces are left. -/
theorem At.end_iff {r : Text} {pos : ℕ} (position : At json pos r) :
    matchSpaces json pos - 1 = json.length ↔ Spaces r := by
  rw [matchSpaces, position.rest]
  obtain ⟨front, rfl, rfl⟩ := position
  have split := congrArg List.length (List.takeWhile_append_dropWhile (p := isSpace) (l := r))
  rw [List.length_append] at split
  rw [List.length_append]
  constructor
  · intro same
    have empty : r.dropWhile isSpace = [] := List.length_eq_zero_iff.mp (by omega)
    exact List.dropWhile_eq_nil_iff.mp empty
  · intro spaces
    rw [List.dropWhile_eq_nil_iff.mpr spaces, List.length_nil] at split
    omega

/-- What `decode` does behind the value. -/
def ended (json : Json) (v : Value ν) : M (Value ν) := do
  modify fun s => { s with pos := matchSpaces json s.pos - 1 }
  let s ← get
  if s.pos ≠ json.length then decode_error "json ended" else pure v

theorem decode_valueAt : decode num json =
    modify (fun s => { s with pos := matchSpaces json 1, rec_depth := 0 }) >>= fun _ =>
      get >>= fun s => valueAt json (call num json 1001) s.pos >>= ended json := by
  simp only [decode, valueAt, bind_assoc]
  rfl

variable (num json) in
/-- A decoder that keeps what it should decodes the documents of the grammar, and nothing else. -/
theorem decode_ensures (clean : Clean s) : Ensures (decode num json) s
    (fun v s' => Clean s' ∧ Document num Accepted 1000 v json ∧ ∀ v', Document num Accepted 1000 v' json → v' = v)
    (fun e s' => Leaves e s' ∧ ∀ v, ¬Document num Accepted 1000 v json) := by
  let s' : State := { s with pos := matchSpaces json 1, rec_depth := 0 }
  have clean' : Clean s' := ⟨clean.prev, clean.keycache⟩
  have calls : Calls json (call num json 1001) (Stands num Accepted 1000) 0 := reads_call 1000 rfl
  have value := reads_valueAt (s := s') calls (fun v t => stands_head)
    clean' rfl (At.start json).spaces
  rw [decode_valueAt]
  refine (ensures_bind _ _).mpr ((ensures_bind _ _).mpr ((ensures_bind _ _).mpr (value.mono ?_ ?_)))
  · rintro v s'' ⟨clean'', -, r, position, found, only⟩
    have behind : Clean { s'' with pos := matchSpaces json s''.pos - 1 } := ⟨clean''.prev, clean''.keycache⟩
    refine (ensures_bind _ _).mpr ((ensures_bind _ _).mpr ((ensures_ite _ _ _).mpr ⟨fun more => ?_, fun end_ => ?_⟩))
    · refine ⟨behind.leaves _ _, fun v' document => ?_⟩
      obtain ⟨r', found', spaces⟩ := document_iff.mp document
      obtain ⟨rfl, rfl⟩ := only v' r' found'
      exact more (position.end_iff.mpr spaces)
    · rw [not_not] at end_
      refine ⟨behind, document_iff.mpr ⟨r, found, position.end_iff.mp end_⟩,
        fun v' document => ?_⟩
      obtain ⟨r', found', -⟩ := document_iff.mp document
      exact (only v' r' found').1
  · rintro e s'' ⟨leaves, none_⟩
    refine ⟨leaves, fun v document => ?_⟩
    obtain ⟨r, found, -⟩ := document_iff.mp document
    exact none_ v r found

end Documents

end OmniaJit.Vendor.LunaJson
