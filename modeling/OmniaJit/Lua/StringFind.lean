import OmniaJit.Lua.PatternSearch

/-! # `string.find` and `string.match`

Both return a leftmost match or nothing. `string.find` looks for a pattern without special characters as it
stands; the pattern accepts the same, up to its first NUL byte.
-/

namespace OmniaJit.Lua.LibString

section Searches

variable {src p : Bytes} {items : List PatternItem} {anchor : Bool}

/-- The first position from `sstr` on where a pattern matches, and the match there. -/
def FirstMatch (src : Bytes) (items : List PatternItem) (anchor : Bool) (sstr t : Bytes) (r : Bytes × List Capture) :
    Prop :=
  t <:+ sstr ∧ (anchor → t = sstr) ∧ (results src items [] t).head? = some r ∧
    ∀ u, u <:+ sstr → t.length < u.length → ∀ r, ¬ Accepts src items [] u r

/-- A pattern matches nowhere from `sstr` on. -/
def NoMatch (src : Bytes) (items : List PatternItem) (anchor : Bool) (sstr : Bytes) : Prop :=
  ∀ u, u <:+ sstr → (anchor → u = sstr) → ∀ r, ¬ Accepts src items [] u r

theorem FirstMatch.here {s : Bytes} {r : Bytes × List Capture} (found : (results src items [] s).head? = some r) :
    FirstMatch src items anchor s s r := by
  refine ⟨List.suffix_rfl, fun _ => rfl, found, fun u suffix longer => ?_⟩
  exact absurd suffix.length_le (Nat.not_le.mpr longer)

theorem FirstMatch.later {c : UInt8} {s t : Bytes} {r : Bytes × List Capture}
    (none : (results src items [] (c :: s)).head? = none) (first : FirstMatch src items false s t r) :
    FirstMatch src items false (c :: s) t r := by
  obtain ⟨suffix, -, found, before⟩ := first
  refine ⟨suffix.trans (List.suffix_cons c s), fun same => absurd same Bool.false_ne_true, found, ?_⟩
  intro u suffix longer
  rcases List.suffix_cons_iff.mp suffix with rfl | behind
  · exact head?_results_eq_none none
  · exact before u behind longer

theorem NoMatch.nil (none : (results src items [] []).head? = none) : NoMatch src items anchor [] := by
  intro u suffix _
  rw [List.suffix_nil.mp suffix]
  exact head?_results_eq_none none

theorem NoMatch.anchored {s : Bytes} (none : (results src items [] s).head? = none) :
    NoMatch src items true s := by
  intro u _ same
  rw [same rfl]
  exact head?_results_eq_none none

theorem NoMatch.later {c : UInt8} {s : Bytes} (none : (results src items [] (c :: s)).head? = none)
    (nowhere : NoMatch src items false s) : NoMatch src items false (c :: s) := by
  intro u suffix _
  rcases List.suffix_cons_iff.mp suffix with rfl | behind
  · exact head?_results_eq_none none
  · exact nowhere u behind fun same => absurd same Bool.false_ne_true

/-- What `search` does wherever its results go. -/
def Searches (src p : Bytes) (anchor : Bool) (sstr : Bytes) (r : Option (Bytes × Bytes × List Capture)) : Prop :=
  ∀ (α : Type) (result : Bytes → Bytes → List Capture → Except PatternError α),
    search src result anchor p sstr =
      match r with
      | none => .ok none
      | some (t, q, ms) => (result t q ms).map some

/-- The loop through the string stops at the first position where the pattern matches. -/
theorem search_valid (good : ValidPattern p items) (anchor : Bool) (sstr : Bytes) :
    (Searches src p anchor sstr none ∧ NoMatch src items anchor sstr) ∨
      ∃ t r, FirstMatch src items anchor sstr t r ∧ Searches src p anchor sstr (some (t, r)) := by
  have here {s : Bytes} {r : Bytes × List Capture} (found : (results src items [] s).head? = some r) :
      Searches src p anchor s (some (s, r)) :=
    fun _ _ => search_first ((good.matchAt src s).trans (congrArg _ found)) anchor
  induction sstr with
  | nil =>
    cases found : (results src items [] []).head? with
    | some r => exact .inr ⟨[], r, .here found, here found⟩
    | none =>
      refine .inl ⟨fun _ result => ?_, .nil found⟩
      rw [search, good.matchAt, found, report]
  | cons c s ih =>
    cases found : (results src items [] (c :: s)).head? with
    | some r => exact .inr ⟨c :: s, r, .here found, here found⟩
    | none =>
      have step {r} (later : anchor = false → Searches src p false s r) (stops : anchor → r = none) :
          Searches src p anchor (c :: s) r := by
        intro α result
        rw [search, good.matchAt, found, report]
        cases anchor with
        | true => rw [stops rfl, if_pos rfl]
        | false => exact later rfl α result
      cases anchor with
      | true => exact .inl ⟨step (fun same => absurd same.symm Bool.false_ne_true) fun _ => rfl, .anchored found⟩
      | false =>
        have free {q : Prop} (same : false = true) : q := absurd same Bool.false_ne_true
        rcases ih with ⟨none, nowhere⟩ | ⟨t, r, first, result⟩
        · exact .inl ⟨step (fun _ => none) free, .later found nowhere⟩
        · exact .inr ⟨t, r, .later found first, step (fun _ => result) free⟩

end Searches

section Literals

variable {src p : Bytes} {items : List PatternItem}

/-- The items of a text that stands for itself. -/
def literal (p : Bytes) : List PatternItem := p.map fun c => .single [c] .once

theorem not_special {c : UInt8} (plain : ¬ lj_str_haspattern p) (member : c ∈ p) : c ∉ ascii "^$*+?.([%-" := by
  intro special
  have punct : ∀ c ∈ ascii "^$*+?.([%-", lj_char_isa c LJ_CHAR_PUNCT := by decide +kernel
  refine plain (List.any_eq_true.mpr ⟨c, member, ?_⟩)
  rw [punct c special, Bool.true_and]
  exact List.contains_iff_mem.mpr special

theorem plain_of_cons {c : UInt8} (plain : ¬ lj_str_haspattern (c :: p)) : ¬ lj_str_haspattern p := by
  rw [lj_str_haspattern, List.any_cons, Bool.or_eq_true, not_or] at plain
  exact plain.2

theorem singlematch_literal {c : UInt8} (ordinary : c ∉ ascii "^$*+?.([%-") (x : UInt8) :
    singlematch x [c] = decide (c = x) := by
  have other {special : UInt8} (member : special ∈ ascii "^$*+?.([%-") : c ≠ special :=
    fun same => ordinary (same ▸ member)
  rw [singlematch, if_neg (other (by decide)), if_neg (other (by decide)), if_neg (other (by decide))]

/-- A text that stands for itself is accepted where it occurs. -/
theorem results_literal (plain : ¬ lj_str_haspattern p) (ms : List Capture) (s : Bytes) :
    results src (literal p) ms s = if p.isPrefixOf s then [(s.drop p.length, ms)] else [] := by
  induction p generalizing s with
  | nil => rfl
  | cons c p ih =>
    have single (x : UInt8) := singlematch_literal (not_special plain (List.mem_cons_self ..)) x
    rw [literal, List.map_cons, results_single, Suffix.rests]
    simp only [single]
    cases s with
    | nil => rfl
    | cons x s =>
      rw [List.isPrefixOf_cons_cons]
      by_cases same : c = x
      · subst same
        simpa [literal] using ih (plain_of_cons plain) s
      · simp [same]

/-- The search for a fixed text finds its leftmost occurrence. -/
theorem lj_str_find_first (plain : ¬ lj_str_haspattern p) (sstr : Bytes) :
    (lj_str_find p sstr = none ∧ NoMatch src (literal p) false sstr) ∨
      ∃ q, lj_str_find p sstr = some q ∧ q + p.length ≤ sstr.length ∧
        FirstMatch src (literal p) false sstr (sstr.drop q) (sstr.drop (q + p.length), []) := by
  have here {s : Bytes} (starts : p.isPrefixOf s) :
      (results src (literal p) [] s).head? = some (s.drop p.length, []) := by
    rw [results_literal plain, if_pos starts, List.head?_cons]
  have nothing {s : Bytes} (other : ¬ p.isPrefixOf s) : (results src (literal p) [] s).head? = none := by
    rw [results_literal plain, if_neg other, List.head?_nil]
  induction sstr with
  | nil =>
    by_cases empty : p = []
    · subst empty
      exact .inr ⟨0, rfl, Nat.le_refl _, .here (here rfl)⟩
    · refine .inl ⟨if_neg empty, .nil (nothing fun starts => empty ?_)⟩
      exact List.prefix_nil.mp (List.isPrefixOf_iff_prefix.mp starts)
  | cons c s ih =>
    by_cases starts : p.isPrefixOf (c :: s)
    · refine .inr ⟨0, by rw [lj_str_find, if_pos starts], ?_, ?_⟩
      · rw [Nat.zero_add]
        exact (List.isPrefixOf_iff_prefix.mp starts).length_le
      · rw [Nat.zero_add, List.drop_zero]
        exact .here (here starts)
    · rw [lj_str_find, if_neg starts]
      rcases ih with ⟨none, nowhere⟩ | ⟨q, found, short, first⟩
      · exact .inl ⟨by rw [none, Option.map_none], .later (nothing starts) nowhere⟩
      · refine .inr ⟨q + 1, by rw [found, Option.map_some], ?_, ?_⟩
        · rw [List.length_cons]
          omega
        · rw [Nat.add_right_comm, List.drop_succ_cons, List.drop_succ_cons]
          exact .later (nothing starts) first

/-- A valid pattern without special characters is a text that stands for itself. -/
theorem literal_of_valid {depth : ℕ} (plain : ¬ lj_str_haspattern p) (parsed : parse p = .ok items)
    (good : valid depth [] items) : items = literal p := by
  induction p generalizing items with
  | nil =>
    rw [parse] at parsed
    exact (Except.ok.inj parsed).symm
  | cons c rest ih =>
    have ordinary := not_special plain (List.mem_cons_self ..)
    have other {x : UInt8} (special : x ∈ ascii "^$*+?.([%-") : c ≠ x := fun same => ordinary (same ▸ special)
    have escape : c ≠ L_ESC := other (by decide)
    by_cases close : c = ')'.toUInt8
    · rw [parse, if_neg (other (by decide)), if_pos close] at parsed
      obtain ⟨inner, -, rfl⟩ := map_ok parsed
      cases good
    · have ends : classend (c :: rest) = .ok rest := by
        rw [classend, if_neg escape, if_neg (other (by decide))]
      have once : Suffix.ofHead rest = .once := by
        have behind {x : UInt8} (special : x ∈ ascii "^$*+?.([%-") : rest.head? ≠ some x := fun head =>
          not_special plain (List.mem_cons_of_mem c (List.mem_of_mem_head? head)) special
        rw [Suffix.ofHead, if_neg (behind (by decide)), if_neg (behind (by decide)), if_neg (behind (by decide)),
          if_neg (behind (by decide))]
      rw [parse, if_neg (other (by decide)), if_neg close, if_neg fun both => escape both.1,
        if_neg fun both => escape both.1, if_neg fun both => escape both.1,
        if_neg fun both => other (by decide) both.1] at parsed
      split at parsed
      · cases parsed
      · rename_i ep ended
        obtain rfl := Except.ok.inj (ends.symm.trans ended)
        obtain ⟨inner, remaining, rfl⟩ := map_ok parsed
        rw [once, Suffix.behind, if_pos rfl] at remaining
        rw [once, valid, if_pos rfl] at good
        rw [once, ih (plain_of_cons plain) remaining good, literal, literal, List.map_cons]
        simp

end Literals

section Functions

variable {s p : Bytes} {init : ℤ} {items : List PatternItem} {anchor : Bool}

/-- The items of a pattern argument, and whether it is anchored. -/
def SearchedFor (p : Bytes) (anchor : Bool) (items : List PatternItem) : Prop :=
  ∃ text, ValidPattern text items ∧ cstring p = (if anchor then '^'.toUInt8 :: text else text) ∧
    (anchor = false → text.head? ≠ some '^'.toUInt8)

/-- What `string.find` looks for: without special characters the whole of the argument. -/
def foundItems (p : Bytes) (items : List PatternItem) : List PatternItem :=
  if lj_str_haspattern p then items else literal p

/-- What `string.find` returns for a match at `t`. -/
def foundAt (s t : Bytes) (r : Bytes × List Capture) : Found :=
  { start := s.length - t.length + 1, stop := s.length - r.1.length, captures := values s r.2 none }

/-- What `string.match` returns. -/
def matchedAt (s t : Bytes) (r : Bytes × List Capture) : List CaptureValue :=
  values s r.2 (some (t.take (t.length - r.1.length)))

/-- Nothing, if no position from `init` on accepts the pattern, or else what is returned for the leftmost match,
which lies within the subject. -/
def Leftmost {α : Type} (s : Bytes) (init : ℤ) (items : List PatternItem) (anchor : Bool)
    (returned : Bytes → Bytes × List Capture → α) (outcome : Except PatternError (Option α)) : Prop :=
  (outcome = .ok none ∧ (offset s init ≤ s.length → NoMatch s items anchor (s.drop (offset s init)))) ∨
    offset s init ≤ s.length ∧ ∃ t r, FirstMatch s items anchor (s.drop (offset s init)) t r ∧ Inside s r.1 r.2 ∧
      outcome = .ok (some (returned t r))

theorem FirstMatch.inside {t : Bytes} {r : Bytes × List Capture} {st : ℕ}
    (first : FirstMatch s items anchor (s.drop st) t r) : Inside s r.1 r.2 :=
  (Accepts.of_head? first.2.2.1).inside
    ⟨first.1.trans (List.drop_suffix ..), fun _ member => absurd member List.not_mem_nil⟩

/-- The search for a pattern, for whatever the captures are pushed for. -/
theorem searchPattern_leftmost {α : Type} {returned : Bytes → Bytes × List Capture → α}
    {result : Bytes → Bytes → List Capture → Except PatternError α} (pattern : SearchedFor p anchor items)
    (within : offset s init ≤ s.length)
    (pushes : ∀ t q ms, (∀ capture ∈ ms, capture.len ≠ .unfinished) → result t q ms = .ok (returned t (q, ms))) :
    Leftmost s init items anchor returned (searchPattern s p (offset s init) result) := by
  obtain ⟨text, good, whole, free⟩ := pattern
  have same : searchPattern s p (offset s init) result =
      search s result anchor text (s.drop (offset s init)) := by
    rw [searchPattern, whole]
    cases anchor with
    | true => rfl
    | false => exact if_neg (free rfl)
  rw [same]
  rcases search_valid good anchor (s.drop (offset s init)) with ⟨searches, nothing⟩ | ⟨t, r, first, searches⟩
  · exact .inl ⟨searches _ _, fun _ => nothing⟩
  · refine .inr ⟨within, t, r, first, first.inside, ?_⟩
    have finished := (Accepts.of_head? first.2.2.1).finished good.2
    rw [searches]
    dsimp only
    rw [pushes t r.1 r.2 finished]
    rfl

theorem lj_str_find_leftmost (plain : ¬ lj_str_haspattern p) (within : offset s init ≤ s.length) :
    Leftmost s init (literal p) false (foundAt s)
      (.ok ((lj_str_find p (s.drop (offset s init))).map fun q =>
        { start := offset s init + q + 1, stop := offset s init + q + p.length })) := by
  rcases lj_str_find_first plain (s.drop (offset s init)) with ⟨none, nowhere⟩ | ⟨q, found, short, first⟩
  · rw [none]
    exact .inl ⟨rfl, fun _ => nowhere⟩
  · refine .inr ⟨within, _, _, first, first.inside, ?_⟩
    rw [found, Option.map_some]
    rw [List.length_drop] at short
    rw [foundAt, values, if_pos rfl]
    simp only [List.length_drop, Option.toList_none, List.map_nil, Except.ok.injEq, Option.some_inj,
      Found.mk.injEq, and_true]
    omega

/-- A pattern without special characters is not anchored, and up to its first NUL it is the text itself. -/
theorem SearchedFor.plain (pattern : SearchedFor p anchor items) (plain : ¬ lj_str_haspattern p) :
    anchor = false ∧ (0 ∉ p → items = literal p) := by
  obtain ⟨text, good, whole, free⟩ := pattern
  have unanchored : anchor = false := by
    by_contra anchored
    rw [Bool.not_eq_false] at anchored
    rw [if_pos anchored] at whole
    have member : '^'.toUInt8 ∈ cstring p := by simp [whole]
    exact not_special plain ((List.takeWhile_subset ..) member) (by decide)
  refine ⟨unanchored, fun ended => ?_⟩
  subst unanchored
  have all : cstring p = p := List.takeWhile_eq_self_iff.mpr fun c member =>
    decide_eq_true fun (same : c = 0) => ended (same ▸ member)
  rw [all, if_neg Bool.false_ne_true] at whole
  subst whole
  exact literal_of_valid plain good.1 good.2

/-- `string.find` and `string.match` with a valid pattern give the leftmost match and its captures, all of them
within the subject. They look for the same, unless a text without special characters has a NUL byte in it. -/
theorem find_leftmost (pattern : SearchedFor p anchor items) :
    Leftmost s init (foundItems p items) anchor (foundAt s) (find s p init false) ∧
      Leftmost s init items anchor (matchedAt s) (string_match s p init) ∧
      (0 ∉ p → foundItems p items = items) := by
  refine ⟨?_, ?_, fun ended => ?_⟩
  · unfold find
    dsimp only
    split_ifs with past fixed
    · exact .inl ⟨rfl, fun within => absurd within (Nat.not_le.mpr past)⟩
    · have plain : ¬ lj_str_haspattern p := fixed.resolve_left id
      obtain ⟨rfl, -⟩ := pattern.plain plain
      rw [foundItems, if_neg plain]
      exact lj_str_find_leftmost plain (Nat.le_of_not_lt past)
    · have special : lj_str_haspattern p := not_not.mp fun plain => fixed (.inr plain)
      rw [foundItems, if_pos special]
      refine searchPattern_leftmost pattern (Nat.le_of_not_lt past) fun t q ms finished => ?_
      rw [push_captures_finished finished]
      rfl
  · unfold string_match
    dsimp only
    split_ifs with past
    · exact .inl ⟨rfl, fun within => absurd within (Nat.not_le.mpr past)⟩
    · exact searchPattern_leftmost pattern (Nat.le_of_not_lt past) fun t q ms finished =>
        push_captures_finished finished _
  · rw [foundItems]
    split_ifs with special
    · rfl
    · exact ((pattern.plain special).2 ended).symm

theorem find_leftmost_pair : ∃ found, find (ascii "x ab=ab") (ascii "(%w+)=%1") 1 false = .ok found := by
  have good : ValidPattern (ascii "(%w+)=%1") pairItems := ⟨by decide +kernel, by decide⟩
  have pattern : SearchedFor (ascii "(%w+)=%1") false pairItems := ⟨_, good, by decide, fun _ => by decide⟩
  obtain ⟨⟨none, -⟩ | ⟨-, t, r, -, -, some⟩, -⟩ := find_leftmost pattern
  · exact ⟨_, none⟩
  · exact ⟨_, some⟩

end Functions

end OmniaJit.Lua.LibString
