import OmniaJit.Lua.LibString
import OmniaJit.Vendor.JsonSessions

/-! # Strings of `lunajson.encoder`

The encoder escapes the characters that cannot stand between quotes. Every string, also one that is not in UTF-8,
comes back from the decoder as it was.
-/

namespace OmniaJit.Vendor.LunaJson

open OmniaJit.Lua (Bytes)
open OmniaJit.Data OmniaJit.Data.Json OmniaJit.Machine OmniaJit.Machine.Program OmniaJit.Lua.LibString

/-- `'[^ -!#-[%]^-\255]'`, the pattern for Lua 5.1 -/
def f_string_esc_pat : Bytes := ascii "[^ -!#-[%]^-" ++ [255, 93]

/-- A digit of `%X`. -/
def hexDigit (n : ℕ) : UInt8 := (ascii "0123456789ABCDEF").getD n 0

/-- `format('\\u00%02X', byte(c))` -/
def unitEscape (c : UInt8) : Text := ascii "\\u00" ++ [hexDigit (c.toNat / 16), hexDigit (c.toNat % 16)]

/-- `f_string_subst[c]`, of a string of one character. What is not in the table is made by `__index`. -/
def f_string_subst : UInt8 → Text
  | 34 => ascii "\\\""
  | 92 => ascii "\\\\"
  | 8 => ascii "\\b"
  | 12 => ascii "\\f"
  | 10 => ascii "\\n"
  | 13 => ascii "\\r"
  | 9 => ascii "\\t"
  | c => unitEscape c

/-- The table as `gsub` gets it. A match of the pattern is one character. -/
def f_string_repl : Repl :=
  .table fun
    | .text [c] => some (some (f_string_subst c))
    | _ => some none

/-- What `f_string` puts behind the texts that are there. -/
def f_string (builder : List Text) (s : Text) : Except PatternError (List Text) := do
  let s ← if (← find s f_string_esc_pat 1 false).isSome then do
      let (s, _) ← gsub s f_string_esc_pat f_string_repl none
      pure s
    else pure s
  return builder ++ [[34], s, [34]]

/-- `encode`, of a string that does not stand for null. -/
def encode (s : Text) : Except PatternError Json := do
  let builder ← f_string [] s
  return builder.flatten

section Escapes

variable {c : UInt8}

instance (c : UInt8) : Decidable (Plain c) := inferInstanceAs (Decidable (_ ∧ _))

theorem singlematch_esc (c : UInt8) : singlematch c f_string_esc_pat = decide ¬Plain c :=
  forall_byte (P := fun c => singlematch c f_string_esc_pat = decide ¬Plain c) (by decide +kernel) c

theorem matchesOne_esc : MatchesOne f_string_esc_pat fun c => decide ¬Plain c := by
  have item := @matchesOne_item '['.toUInt8 (ascii "^ -!#-[%]^-" ++ [255, 93]) (by decide) (by decide +kernel)
  intro src s
  rw [← funext singlematch_esc]
  exact item src s

/-- A string with every character escaped that has to be. -/
def escaped (s : Text) : Text := replaceEach (fun c => decide ¬Plain c) f_string_subst s

theorem escaped_cons (c : UInt8) (s : Text) :
    escaped (c :: s) = (if Plain c then [c] else f_string_subst c) ++ escaped s := by
  rw [escaped, replaceEach, List.flatMap_cons]
  by_cases plain : Plain c <;> simp [plain, escaped, replaceEach]

theorem escaped_plain {s : Text} (plain : ∀ c ∈ s, Plain c) : escaped s = s := by
  induction s with
  | nil => rfl
  | cons c s ih =>
    obtain ⟨here, plain⟩ := List.forall_mem_cons.mp plain
    rw [escaped_cons, if_pos here, ih plain]
    rfl

/-- The search in front of the substitution makes no difference. -/
theorem f_string_eq (builder : List Text) (s : Text) :
    f_string builder s = .ok (builder ++ [[34], escaped s, [34]]) := by
  obtain ⟨found, finds, some_iff⟩ := find_item matchesOne_esc (by decide) (by decide) (by decide) s
  have replaced := @gsub_item _ _ f_string_repl f_string_subst matchesOne_esc (by decide) (by decide)
    (fun _ _ _ => rfl) s
  rw [f_string, finds]
  cases someone : found.isSome with
  | true =>
    simp only [bind, Except.bind, someone, if_true, replaced]
    rfl
  | false =>
    have plain : ∀ c ∈ s, Plain c := by
      rw [someone] at some_iff
      simpa using some_iff.symm
    simp only [bind, Except.bind, someone, Bool.false_eq_true, if_false, escaped_plain plain]
    rfl

theorem encode_escaped (s : Text) : encode s = .ok (34 :: (escaped s ++ [34])) := by
  rw [encode, f_string_eq]
  rfl

/-- What is put in the place of a character is a character behind a backslash, or its code unit. -/
theorem f_string_subst_cases (special : ¬Plain c) :
    (∃ e, f_string_subst c = [92, e] ∧ e ≠ 117 ∧ escape e = some c) ∨
      ∃ a b, f_string_subst c = [92, 117, 48, 48, a, b] ∧ codeUnit 48 48 a b = some c.toNat ∧ c.toNat < 0x80 := by
  have known := forall_byte (P := fun c => ¬Plain c →
    (f_string_subst c = [92, (f_string_subst c).getD 1 0] ∧ (f_string_subst c).getD 1 0 ≠ 117 ∧
        escape ((f_string_subst c).getD 1 0) = some c) ∨
      f_string_subst c = [92, 117, 48, 48, hexDigit (c.toNat / 16), hexDigit (c.toNat % 16)] ∧
        codeUnit 48 48 (hexDigit (c.toNat / 16)) (hexDigit (c.toNat % 16)) = some c.toNat ∧ c.toNat < 0x80)
    (by decide +kernel) c special
  rcases known with short | long
  · exact .inl ⟨_, short⟩
  · exact .inr ⟨_, _, long⟩

theorem utf8_ascii {n : ℕ} (ascii : n < 0x80) : utf8 n = [UInt8.ofNat n] := by
  have all : ∀ n < 0x80, utf8 n = [UInt8.ofNat n] := by decide +kernel
  exact all n ascii

theorem lex_escaped (s : Text) : ∃ ps, lex (escaped s) = some ps ∧ decoded ps = some s := by
  induction s with
  | nil => exact ⟨[], rfl, rfl⟩
  | cons c s ih =>
    obtain ⟨ps, found, same⟩ := ih
    rw [escaped_cons]
    by_cases plain : Plain c
    · refine ⟨.raw c :: ps, ?_, ?_⟩
      · rw [if_pos plain, List.singleton_append, lex_cons plain, found]
        rfl
      · rw [decoded_raw, same]
        rfl
    rw [if_neg plain]
    rcases f_string_subst_cases plain with ⟨e, text, other, means⟩ | ⟨a, b, text, unit, low⟩
    · refine ⟨.escape c :: ps, ?_, ?_⟩
      · rw [text, List.cons_append, List.singleton_append, lex_escape other, means, found]
        rfl
      · rw [decoded_escape, same]
        rfl
    · have notFirst : ¬IsFirst c.toNat := fun first => by have := first.1; omega
      have notSecond : ¬IsSecond c.toNat := fun second => by have := second.1; omega
      refine ⟨.unit c.toNat :: ps, ?_, ?_⟩
      · rw [text]
        change lex (92 :: 117 :: 48 :: 48 :: a :: b :: escaped s) = _
        rw [lex_unit, unit, found]
        rfl
      · rw [decoded_unit notFirst, if_neg notSecond, same, utf8_ascii low, UInt8.ofNat_toNat]
        rfl

end Escapes

section RoundTrip

variable {ν : Type} {num : Numbers ν} {s : State}

variable (num) in
/-- What the encoder writes for a string is a string of the standard, and every decoder gives it back. -/
theorem decode_encoded (clean : Clean s) (t : Text) :
    ∃ body s', encode t = .ok (34 :: (body ++ [34])) ∧ Standard body t ∧
      decode num (34 :: (body ++ [34])) s = .ok (.string t) s' ∧ Clean s' := by
  have standard : Standard (escaped t) t := lex_escaped t
  have document : Document num Accepted 1000 (.string t) (34 :: (escaped t ++ [34])) := by
    refine ⟨[], _, [], ?_, .inl (.string (standard_iff.mp standard).1), ?_, ?_⟩
    · exact fun _ member => absurd member List.not_mem_nil
    · exact fun _ member => absurd member List.not_mem_nil
    · simp
  obtain ⟨s', ran⟩ := (decode_ok_iff num _ clean _).mpr document
  have leaves := decode_ensures num (34 :: (escaped t ++ [34])) clean
  rw [Ensures, ran] at leaves
  exact ⟨escaped t, s', encode_escaped t, standard, ran, leaves.1⟩

theorem decode_encoded_newline : ∃ body s', encode [10] = .ok (34 :: (body ++ [34])) ∧ Standard body [10] ∧
    decode (⟨id, Neg.neg⟩ : Numbers ℚ) (34 :: (body ++ [34])) {} = .ok (.string [10]) s' ∧ Clean s' :=
  decode_encoded _ clean_initial [10]

end RoundTrip

end OmniaJit.Vendor.LunaJson
