import OmniaJit.Vendor.JsonDecoder

/-! # Reading from a position

What it means that a function of the decoder reads something off the front of what is left of the text: it finds
it whenever it is there, it finds nothing else, and it leaves the rest. Functions that are called one after the
other read one thing after the other.
-/

namespace OmniaJit.Vendor.LunaJson

open OmniaJit.Data OmniaJit.Data.Json OmniaJit.Machine OmniaJit.Machine.Program

variable {α β ν : Type} {json : Json} {pos : ℕ} {r : Text} {s : State}

/-- From the position on there is this text. -/
def At (json : Json) (pos : ℕ) (r : Text) : Prop := ∃ front, json = front ++ r ∧ pos = front.length + 1

section Positions

theorem At.start (json : Json) : At json 1 json := ⟨[], rfl, rfl⟩

theorem At.rest (position : At json pos r) : rest json pos = r := by
  obtain ⟨front, rfl, rfl⟩ := position
  exact List.drop_left

theorem At.byte (position : At json pos r) : byte json pos = r.head? := by
  obtain ⟨front, rfl, rfl⟩ := position
  rw [LunaJson.byte, Nat.add_sub_cancel, List.getElem?_append_right le_rfl, Nat.sub_self, List.head?_eq_getElem?]

theorem At.append {t : Text} (position : At json pos (t ++ r)) : At json (pos + t.length) r := by
  obtain ⟨front, rfl, rfl⟩ := position
  refine ⟨front ++ t, (List.append_assoc ..).symm, ?_⟩
  rw [List.length_append]
  omega

theorem At.cons {c : UInt8} (position : At json pos (c :: r)) : At json (pos + 1) r :=
  At.append (t := [c]) position

theorem At.spaces (position : At json pos r) : At json (matchSpaces json pos) (r.dropWhile isSpace) := by
  rw [matchSpaces, position.rest]
  rw [← List.takeWhile_append_dropWhile (p := isSpace) (l := r)] at position
  exact position.append

/-- A character behind spaces. -/
theorem At.close (position : At json pos r) (c : UInt8) :
    (∃ newpos r', matchClose json c pos = some newpos ∧ r.dropWhile isSpace = c :: r' ∧ At json newpos r') ∨
      matchClose json c pos = none ∧ ∀ r', r.dropWhile isSpace ≠ c :: r' := by
  have after := position.spaces
  rw [matchClose, after.byte]
  cases found : r.dropWhile isSpace with
  | nil =>
    refine .inr ⟨if_neg (by simp), fun r' equal => ?_⟩
    cases equal
  | cons d r' =>
    rw [found] at after
    rw [List.head?_cons]
    by_cases same : d = c
    · subst same
      exact .inl ⟨_, r', if_pos rfl, rfl, after.cons⟩
    · refine .inr ⟨if_neg fun equal => same (Option.some.inj equal), fun r' equal => same ?_⟩
      exact (List.cons.inj equal).1

/-- A character between spaces. -/
theorem At.between (position : At json pos r) (c : UInt8) :
    (∃ newpos r', matchBetween json c pos = some newpos ∧ r.dropWhile isSpace = c :: r' ∧
        At json newpos (r'.dropWhile isSpace)) ∨
      matchBetween json c pos = none ∧ ∀ r', r.dropWhile isSpace ≠ c :: r' := by
  rcases position.close c with ⟨newpos, r', found, split, after⟩ | ⟨missing, none_⟩
  · refine .inl ⟨_, r', ?_, split, after.spaces⟩
    rw [matchBetween, found]
    rfl
  · refine .inr ⟨?_, none_⟩
    rw [matchBetween, missing]
    rfl

end Positions

section Readers

/-- A character that stands for itself comes next. -/
def plainNext : List Piece → Bool
  | .raw _ :: _ => true
  | _ => false

/-- What the decoder makes of the characters of a string, with the first half of a surrogate pair that is waiting
for the second one. The two halves need not be next to each other: other code units can stand between them, and
characters behind these. -/
def assembled : ℕ → List Piece → Option Text
  | prev, [] => if prev = 0 then some [] else none
  | prev, .raw c :: ps => do some (c :: (← assembled prev ps))
  | prev, .escape c :: ps => if prev = 0 then do some (c :: (← assembled 0 ps)) else none
  | prev, .unit u :: ps =>
    if IsFirst u then if prev = 0 ∧ plainNext ps = false then assembled u ps else none
    else if IsSecond u then
      if prev = 0 then none else do some (utf8 (pair prev u) ++ (← assembled 0 ps))
    else do some (utf8 u ++ (← assembled prev ps))

/-- Strings as the decoder takes them. -/
def Accepted (body t : Text) : Prop := ∃ ps, lex body = some ps ∧ assembled 0 ps = some t

/-- A decoder as it is at first, apart from the keys it knows. -/
structure Clean (s : State) : Prop where
  prev : s.f_str_surrogate_prev = 0
  keycache : ∀ k t, s.f_str_keycache.lookup k = some t → Accepted k t

/-- The errors there are, and what they leave: perhaps the first half of a pair, and keys as they should be. -/
structure Leaves (e : Error) (s : State) : Prop where
  stack : e ≠ .stack
  endless : e ≠ .endless
  prev : s.f_str_surrogate_prev = 0 ∨ IsFirst s.f_str_surrogate_prev
  keycache : ∀ k t, s.f_str_keycache.lookup k = some t → Accepted k t

theorem Clean.leaves (clean : Clean s) (pos : ℕ) (errmsg : String) : Leaves (.parse pos errmsg) s :=
  ⟨Error.noConfusion, Error.noConfusion, .inl clean.prev, clean.keycache⟩

/-- The program returns the thing that is at the position and leaves what is behind it, or fails if there is none.
There is not more than one such thing. -/
def Reads (json : Json) (program : M α) (s : State) (P : α → Text → Prop) : Prop :=
  Ensures program s
    (fun v s' => Clean s' ∧ s'.rec_depth = s.rec_depth ∧
      ∃ r, At json s'.pos r ∧ P v r ∧ ∀ v' r', P v' r' → v' = v ∧ r' = r)
    (fun e s' => Leaves e s' ∧ ∀ v r, ¬P v r)

variable {P : α → Text → Prop} {Q : β → Text → Prop}

theorem Reads.congr {program : M α} {P' : α → Text → Prop} (reads : Reads json program s P)
    (same : ∀ v r, P' v r ↔ P v r) : Reads json program s P' := by
  refine reads.mono ?_ ?_
  · rintro v s' ⟨clean, depth, r, position, found, only⟩
    exact ⟨clean, depth, r, position, (same v r).mpr found, fun v' r' other => only v' r' ((same v' r').mp other)⟩
  · rintro e s' ⟨leaves, none_⟩
    exact ⟨leaves, fun v r other => none_ v r ((same v r).mp other)⟩

/-- One thing after the other. -/
theorem Reads.bind {first : M α} {second : α → M β} (Q' : α → Text → β → Text → Prop) (reads : Reads json first s P)
    (next : ∀ v r s', Clean s' → s'.rec_depth = s.rec_depth → At json s'.pos r → P v r →
      Reads json (second v) s' (Q' v r))
    (split : ∀ w t, Q w t ↔ ∃ v r, P v r ∧ Q' v r w t) : Reads json (first >>= second) s Q := by
  refine (ensures_bind _ _).mpr (reads.mono ?_ ?_)
  · rintro v s' ⟨clean, depth, r, position, found, only⟩
    refine (next v r s' clean depth position found).mono ?_ ?_
    · rintro w s'' ⟨clean', depth', t, position', found', only'⟩
      refine ⟨clean', depth'.trans depth, t, position', (split w t).mpr ⟨v, r, found, found'⟩, fun w' t' other => ?_⟩
      obtain ⟨v', r', found', rest'⟩ := (split w' t').mp other
      obtain ⟨rfl, rfl⟩ := only v' r' found'
      exact only' w' t' rest'
    · rintro e s'' ⟨leaves, none_⟩
      refine ⟨leaves, fun w t other => ?_⟩
      obtain ⟨v', r', found', rest'⟩ := (split w t).mp other
      obtain ⟨rfl, rfl⟩ := only v' r' found'
      exact none_ w t rest'
  · rintro e s' ⟨leaves, none_⟩
    refine ⟨leaves, fun w t other => ?_⟩
    obtain ⟨v', r', found', -⟩ := (split w t).mp other
    exact none_ v' r' found'

/-- What is found is returned. -/
theorem Reads.pure {v : α} {r : Text} (clean : Clean s) (position : At json s.pos r) (found : P v r)
    (only : ∀ v' r', P v' r' → v' = v ∧ r' = r) : Reads json (pure v) s P :=
  ⟨clean, rfl, r, position, found, only⟩

/-- Nothing is found. -/
theorem Reads.error (clean : Clean s) (errmsg : String) (none_ : ∀ v r, ¬P v r) :
    Reads json (decode_error errmsg) s P :=
  ⟨clean.leaves _ _, none_⟩

end Readers

end OmniaJit.Vendor.LunaJson
