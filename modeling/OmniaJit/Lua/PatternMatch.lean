import OmniaJit.Lua.PatternSyntax

/-! # The matcher and the pattern language

The matcher of a pattern gives the first of its results, or NULL if there is none. The only other outcome
is an error, which a valid pattern never raises.
-/

namespace OmniaJit.Lua.LibString

/-- A match gives the first of `results`, unless it raises an error and `fine` does not hold. -/
def FirstOf (fine : Prop) (matched : Matched) (results : List (Bytes × List Capture)) : Prop :=
  matched = .ok results.head? ∨ ∃ e, matched = .error e ∧ ¬ fine

section FirstOf

variable {fine other : Prop} {first : Matched} {second : Unit → Matched} {next : Bytes → Matched}
  {here there : List (Bytes × List Capture)} {after : Bytes → List (Bytes × List Capture)}
  {single : UInt8 → Bool}

theorem FirstOf.mono (of : FirstOf fine first here) (less : other → fine) : FirstOf other first here := by
  rcases of with result | ⟨e, failed, bad⟩
  · exact .inl result
  · exact .inr ⟨e, failed, fun good => bad (less good)⟩

theorem FirstOf.ok (result : Bytes × List Capture) : FirstOf fine (.ok (some result)) [result] := .inl rfl

theorem FirstOf.none : FirstOf fine (.ok none) [] := .inl rfl

theorem FirstOf.error {e : PatternError} (bad : ¬ fine) : FirstOf fine (.error e) here := .inr ⟨e, rfl, bad⟩

theorem FirstOf.orElse (left : FirstOf fine first here) (right : FirstOf fine (second ()) there) :
    FirstOf fine (first.orElse second) (here ++ there) := by
  rcases left with result | ⟨e, failed, bad⟩
  · rw [result]
    cases here with
    | nil => exact right
    | cons r here => exact .inl rfl
  · rw [failed]
    exact .error bad

theorem FirstOf.nested {depth : ℕ} {match_ : ℕ → Matched}
    (inner : depth < LJ_MAX_XLEVEL → FirstOf fine (match_ (depth + 1)) here)
    (shallow : fine → depth < LJ_MAX_XLEVEL) : FirstOf fine (nested depth match_) here := by
  by_cases room : depth < LJ_MAX_XLEVEL
  · rw [nested_of_lt room]
    exact inner room
  · rw [LibString.nested, if_pos (Nat.lt_of_not_ge fun h => room h)]
    exact .error fun good => room (shallow good)

theorem FirstOf.max_expand (rest : ∀ s, FirstOf fine (next s) (after s)) (s : Bytes) :
    FirstOf fine (max_expand single next s) ((runs single s).reverse.flatMap after) := by
  induction s with
  | nil =>
    rw [LibString.max_expand, runs, List.reverse_singleton, List.flatMap_singleton]
    exact rest []
  | cons c s ih =>
    rw [LibString.max_expand, runs, List.reverse_cons, List.flatMap_append, List.flatMap_singleton]
    split_ifs
    · exact ih.orElse (rest _)
    · exact rest _

theorem FirstOf.min_expand (rest : ∀ s, FirstOf fine (next s) (after s)) (s : Bytes) :
    FirstOf fine (min_expand single next s) ((runs single s).flatMap after) := by
  induction s with
  | nil =>
    rw [LibString.min_expand, runs, List.flatMap_singleton]
    exact rest []
  | cons c s ih =>
    rw [LibString.min_expand, runs, List.flatMap_cons]
    apply (rest _).orElse
    split_ifs
    · exact ih
    · exact .none

end FirstOf

section Validity

theorem kinds_append (ms : List Capture) (s : Bytes) (len : Extent) :
    kinds (ms ++ [⟨s, len⟩]) = kinds ms ++ [len.kind] := List.map_append ..

theorem kinds_length (ms : List Capture) : (kinds ms).length = ms.length := List.length_map ..

theorem kinds_getElem? (ms : List Capture) (l : ℕ) :
    (kinds ms)[l]? = ms[l]?.map fun capture => capture.len.kind := List.getElem?_map ..

theorem Extent.kind_eq_unfinished {len : Extent} : len.kind = .unfinished ↔ len = .unfinished := by
  cases len <;> simp [Extent.kind]

theorem kind_to_close_kinds (ms : List Capture) : kind_to_close (kinds ms) = capture_to_close ms := by
  rw [kind_to_close, capture_to_close, kinds_length]
  congr 1
  funext l
  rw [kinds_getElem?]
  cases ms[l]? with
  | none => simp
  | some capture => simp [Extent.kind_eq_unfinished]

theorem kinds_closed (ms : List Capture) (s : Bytes) (l : ℕ) :
    kinds (closed ms s l) = (kinds ms).set l .closed := by
  apply List.ext_getElem?
  intro j
  rw [kinds_getElem?, closed, List.getElem?_modify, List.getElem?_set, kinds_length, kinds_getElem?]
  by_cases same : l = j
  · subst same
    by_cases inside : l < ms.length
    · simp [inside, Extent.kind]
    · simp [inside]
  · simp [same]

/-- Fewer nested matches leave more room. -/
theorem valid_mono {p : List PatternItem} {depth shallower : ℕ} {ks : List Kind} (less : shallower ≤ depth)
    (good : valid depth ks p) : valid shallower ks p := by
  induction p generalizing depth shallower ks with
  | nil => exact good
  | cons item p ih =>
    have deeper := Nat.succ_le_succ less
    cases item with
    | start =>
      simp only [valid, decide_eq_true_eq] at good ⊢
      exact ⟨good.1, less.trans_lt good.2.1, ih deeper good.2.2⟩
    | position =>
      simp only [valid, decide_eq_true_eq] at good ⊢
      exact ⟨good.1, less.trans_lt good.2.1, ih deeper good.2.2⟩
    | close =>
      simp only [valid] at good ⊢
      split at good
      · rw [decide_eq_true_eq] at good ⊢
        exact ⟨less.trans_lt good.1, ih deeper good.2⟩
      · cases good
    | back l =>
      simp only [valid, decide_eq_true_eq] at good ⊢
      exact ⟨good.1, good.2.1, ih less good.2.2⟩
    | single item suffix =>
      rw [valid] at good ⊢
      split_ifs at good ⊢
      · exact ih less good
      · rw [decide_eq_true_eq] at good ⊢
        exact ⟨less.trans_lt good.1, ih deeper good.2⟩
    | balance b e => exact ih less good
    | frontier set => exact ih less good
    | stop => exact ih less good

end Validity

section Items

variable {src s p : Bytes} {items : List PatternItem} {depth : ℕ} {ms : List Capture}

/-- The matcher follows the items of a pattern. -/
def Follows (src p : Bytes) (items : List PatternItem) : Prop :=
  ∀ depth ms s, FirstOf (valid depth (kinds ms) items) (matchItems src depth ms s p) (results src items ms s)

/-- A match that is nested because of an item before it. -/
theorem Follows.nested (follows : Follows src p items) (shallow : Prop)
    (room : shallow → depth < LJ_MAX_XLEVEL ∧ valid (depth + 1) (kinds ms) items) :
    FirstOf shallow (nested depth fun depth => matchItems src depth ms s p) (results src items ms s) :=
  FirstOf.nested (fun _ => (follows _ _ _).mono fun good => (room good).2) fun good => (room good).1

theorem Follows.start_capture (follows : Follows src p items) (what : Extent) (fine : Prop)
    (room : fine → ms.length < LUA_MAXCAPTURES ∧ depth < LJ_MAX_XLEVEL ∧
      valid (depth + 1) (kinds ms ++ [what.kind]) items) :
    FirstOf fine (start_capture ms s what fun ms => LibString.nested depth fun depth => matchItems src depth ms s p)
      (results src items (ms ++ [⟨s, what⟩]) s) := by
  rw [LibString.start_capture]
  split_ifs with full
  · exact .error fun good => absurd (room good).1 (Nat.not_lt.mpr full)
  · apply follows.nested fine
    rw [kinds_append]
    exact fun good => (room good).2

theorem Follows.end_capture (follows : Follows src p items) :
    FirstOf (valid depth (kinds ms) (.close :: items))
      (end_capture ms s fun ms => LibString.nested depth fun depth => matchItems src depth ms s p)
      (results src (.close :: items) ms s) := by
  rw [LibString.end_capture, results, PatternItem.step, valid, kind_to_close_kinds]
  cases capture_to_close ms with
  | none => exact .error Bool.false_ne_true
  | some l =>
    simp only [Option.toList_some, List.map_singleton, List.flatMap_singleton, decide_eq_true_eq]
    apply follows.nested
    intro good
    rwa [← closed, kinds_closed]

theorem Follows.balance (follows : Follows src p items) (b e : UInt8) (tail : Bytes) :
    FirstOf (valid depth (kinds ms) (.balance b e :: items))
      (match matchbalance s (b :: e :: tail) with
        | .error e => .error e
        | .ok none => .ok none
        | .ok (some s) => matchItems src depth ms s p)
      (results src (.balance b e :: items) ms s) := by
  rw [results, valid]
  cases s with
  | nil => exact .none
  | cons c s =>
    rw [PatternItem.step, matchbalance]
    cases result : (if c = b then LibString.balance b e 1 s else none) with
    | none => exact .none
    | some t =>
      rw [Option.toList_some, List.map_singleton, List.flatMap_singleton]
      exact follows depth ms t

theorem Follows.frontier (follows : Follows src p items) (set : Bytes) :
    FirstOf (valid depth (kinds ms) (.frontier set :: items))
      (if frontier src s set then matchItems src depth ms s p else .ok none)
      (results src (.frontier set :: items) ms s) := by
  rw [results, valid, PatternItem.step]
  split_ifs
  · rw [List.flatMap_singleton]
    exact follows depth ms s
  · exact .none

/-- The kind of a capture decides whether it can be matched again. -/
theorem match_capture_error {l : UInt8} {e : PatternError} (failed : match_capture ms s l = .error e) :
    ¬ ('1'.toUInt8 ≤ l ∧ (kinds ms)[l.toNat - '1'.toNat]?.any (· ≠ .unfinished)) := by
  rintro ⟨digit, good⟩
  rw [match_capture, if_neg (UInt8.not_lt.mpr digit)] at failed
  rw [kinds_getElem?] at good
  cases here : ms[l.toNat - '1'.toNat]? with
  | none =>
    rw [here] at good
    exact absurd good Bool.false_ne_true
  | some capture =>
    rw [here, Option.map_some, Option.any_some, decide_eq_true_eq] at good
    rw [here] at failed
    dsimp only at failed
    cases len : capture.len with
    | unfinished => exact good (by rw [len, Extent.kind])
    | position => simp [len] at failed
    | closed n => simp [len] at failed

theorem Follows.back (follows : Follows src p items) (l : UInt8) :
    FirstOf (valid depth (kinds ms) (.back l :: items))
      (match match_capture ms s l with
        | .error e => .error e
        | .ok none => .ok none
        | .ok (some s) => matchItems src depth ms s p)
      (results src (.back l :: items) ms s) := by
  rw [results, valid, PatternItem.step, decide_eq_true_eq]
  cases result : match_capture ms s l with
  | error e => exact .error fun good => match_capture_error result ⟨good.1, good.2.1⟩
  | ok matched =>
    cases matched with
    | none => exact .none
    | some t =>
      rw [List.flatMap_singleton]
      exact (follows depth ms t).mono fun good => good.2.2

theorem results_single (src item : Bytes) (suffix : Suffix) (items : List PatternItem) (ms : List Capture)
    (s : Bytes) : results src (.single item suffix :: items) ms s =
      (suffix.rests (singlematch · item) s).flatMap fun s => results src items ms s := by
  rw [results, PatternItem.step, List.flatMap_map]

theorem Follows.single {item ep : Bytes} (follows : Follows src ((Suffix.ofHead ep).behind ep) items) :
    FirstOf (valid depth (kinds ms) (.single item (Suffix.ofHead ep) :: items))
      (let single := fun x => singlematch x item
        let m := s.head?.any single
        let next := fun s => LibString.nested depth fun depth => matchItems src depth ms s ep.tail
        if ep.head? = some '?'.toUInt8 then
          if m then (next s.tail).orElse fun _ => matchItems src depth ms s ep.tail
          else matchItems src depth ms s ep.tail
        else if ep.head? = some '*'.toUInt8 then LibString.max_expand single next s
        else if ep.head? = some '+'.toUInt8 then (if m then LibString.max_expand single next s.tail else .ok none)
        else if ep.head? = some '-'.toUInt8 then LibString.min_expand single next s
        else if m then matchItems src depth ms s.tail ep
        else .ok none)
      (results src (.single item (Suffix.ofHead ep) :: items) ms s) := by
  rw [results_single]
  have nest (repeats : Suffix.ofHead ep ≠ .once) (s : Bytes) :
      FirstOf (valid depth (kinds ms) (.single item (Suffix.ofHead ep) :: items))
        (LibString.nested depth fun depth => matchItems src depth ms s ep.tail) (results src items ms s) := by
    rw [Suffix.behind, if_neg repeats] at follows
    apply follows.nested
    rw [valid, if_neg repeats, decide_eq_true_eq]
    exact id
  by_cases option : ep.head? = some '?'.toUInt8
  · have suffix : Suffix.ofHead ep = .optional := if_pos option
    rw [suffix] at follows nest ⊢
    have skip (s : Bytes) : FirstOf (valid depth (kinds ms) (.single item .optional :: items))
        (matchItems src depth ms s ep.tail) (results src items ms s) := by
      apply (follows depth ms s).mono
      rw [valid, if_neg (by decide), decide_eq_true_eq]
      exact fun good => valid_mono (Nat.le_succ depth) good.2
    simp only [if_pos option, Suffix.rests]
    split_ifs
    · rw [List.flatMap_cons, List.flatMap_singleton]
      exact (nest (by decide) _).orElse (skip s)
    · rw [List.flatMap_singleton]
      exact skip s
  by_cases star : ep.head? = some '*'.toUInt8
  · have suffix : Suffix.ofHead ep = .star := by rw [Suffix.ofHead, if_neg option, if_pos star]
    rw [suffix] at nest ⊢
    simp only [if_neg option, if_pos star, Suffix.rests]
    exact FirstOf.max_expand (nest (by decide)) s
  by_cases plus : ep.head? = some '+'.toUInt8
  · have suffix : Suffix.ofHead ep = .plus := by
      rw [Suffix.ofHead, if_neg option, if_neg star, if_pos plus]
    rw [suffix] at nest ⊢
    simp only [if_neg option, if_neg star, if_pos plus, Suffix.rests]
    split_ifs
    · exact FirstOf.max_expand (nest (by decide)) s.tail
    · exact .none
  by_cases minus : ep.head? = some '-'.toUInt8
  · have suffix : Suffix.ofHead ep = .minus := by
      rw [Suffix.ofHead, if_neg option, if_neg star, if_neg plus, if_pos minus]
    rw [suffix] at nest ⊢
    simp only [if_neg option, if_neg star, if_neg plus, if_pos minus, Suffix.rests]
    exact FirstOf.min_expand (nest (by decide)) s
  · have suffix : Suffix.ofHead ep = .once := by
      rw [Suffix.ofHead, if_neg option, if_neg star, if_neg plus, if_neg minus]
    rw [suffix] at follows ⊢
    rw [Suffix.behind, if_pos rfl] at follows
    simp only [if_neg option, if_neg star, if_neg plus, if_neg minus, Suffix.rests, valid, if_true]
    split_ifs
    · rw [List.flatMap_singleton]
      exact follows depth ms s.tail
    · exact .none

theorem map_ok {item : PatternItem} {parsed : Except PatternError (List PatternItem)} {items : List PatternItem}
    (result : parsed.map (item :: ·) = .ok items) : ∃ inner, parsed = .ok inner ∧ item :: inner = items := by
  cases parsed with
  | error e => cases result
  | ok inner => exact ⟨inner, rfl, Except.ok.inj result⟩

/-- The matcher follows every pattern that can be read. -/
theorem follows_parse (src : Bytes) {p : Bytes} {items : List PatternItem} (parsed : parse p = .ok items) :
    Follows src p items := by
  induction p using parse.induct generalizing items with
  | case1 =>
    rw [parse] at parsed
    cases parsed
    intro depth ms s
    rw [matchItems, results]
    exact .ok (s, ms)
  | case2 rest position ih =>
    rw [parse, if_pos rfl, if_pos position] at parsed
    obtain ⟨items, inner, rfl⟩ := map_ok parsed
    intro depth ms s
    rw [matchItems, if_pos rfl, if_pos position, results, PatternItem.step, List.flatMap_singleton]
    apply (ih inner).start_capture
    rw [valid, decide_eq_true_eq, kinds_length]
    exact id
  | case3 rest other ih =>
    rw [parse, if_pos rfl, if_neg other] at parsed
    obtain ⟨items, inner, rfl⟩ := map_ok parsed
    intro depth ms s
    rw [matchItems_start other, results, PatternItem.step, List.flatMap_singleton]
    apply (ih inner).start_capture
    rw [valid, decide_eq_true_eq, kinds_length]
    exact id
  | case4 rest _ ih =>
    rw [parse, if_neg (by decide), if_pos rfl] at parsed
    obtain ⟨items, inner, rfl⟩ := map_ok parsed
    intro depth ms s
    rw [matchItems_close]
    exact (ih inner).end_capture
  | case5 c rest start close balance b e tail text ih =>
    rw [parse, if_neg start, if_neg close, if_pos balance, text] at parsed
    obtain ⟨items, inner, rfl⟩ := map_ok parsed
    intro depth ms s
    rw [matchItems, if_neg start, if_neg close, if_pos balance, text]
    exact (ih inner).balance b e tail
  | case6 c rest start close balance text =>
    rw [parse, if_neg start, if_neg close, if_pos balance] at parsed
    split at parsed
    · rename_i b e tail whole
      exact (text b e tail whole).elim
    · cases parsed
  | case7 c rest start close balance frontier bracket =>
    rw [parse, if_neg start, if_neg close, if_neg balance, if_pos frontier, if_pos bracket] at parsed
    cases parsed
  | case8 c rest start close balance frontier bracket e failed =>
    rw [parse, if_neg start, if_neg close, if_neg balance, if_pos frontier, if_neg bracket] at parsed
    split at parsed
    · cases parsed
    · rename_i ep ends
      cases failed.symm.trans ends
  | case9 c rest start close balance frontier bracket ep ends ih =>
    rw [parse, if_neg start, if_neg close, if_neg balance, if_pos frontier, if_neg bracket] at parsed
    split at parsed
    · cases parsed
    · rename_i ep' ends'
      obtain rfl := Except.ok.inj (ends.symm.trans ends')
      obtain ⟨items, inner, rfl⟩ := map_ok parsed
      intro depth ms s
      rw [matchItems, if_neg start, if_neg close, if_neg balance, if_pos frontier, if_neg bracket]
      split
      · rename_i failed
        cases ends.symm.trans failed
      · rename_i ep' ends'
        obtain rfl := Except.ok.inj (ends.symm.trans ends')
        exact (ih inner).frontier _
  | case10 c rest start close balance frontier back ih =>
    rw [parse, if_neg start, if_neg close, if_neg balance, if_neg frontier, if_pos back] at parsed
    obtain ⟨items, inner, rfl⟩ := map_ok parsed
    intro depth ms s
    rw [matchItems, if_neg start, if_neg close, if_neg balance, if_neg frontier, if_pos back]
    exact (ih inner).back _
  | case11 c rest start close balance frontier back stop =>
    rw [parse, if_neg start, if_neg close, if_neg balance, if_neg frontier, if_neg back, if_pos stop] at parsed
    cases parsed
    intro depth ms s
    rw [matchItems, if_neg start, if_neg close, if_neg balance, if_neg frontier, if_neg back, if_pos stop,
      results, PatternItem.step]
    split_ifs
    · exact .ok (s, ms)
    · exact .none
  | case12 c rest start close balance frontier back stop e failed =>
    rw [parse, if_neg start, if_neg close, if_neg balance, if_neg frontier, if_neg back, if_neg stop] at parsed
    split at parsed
    · cases parsed
    · rename_i ep ends
      cases failed.symm.trans ends
  | case13 c rest start close balance frontier back stop ep ends suffix =>
    rename_i ih
    rw [parse, if_neg start, if_neg close, if_neg balance, if_neg frontier, if_neg back, if_neg stop] at parsed
    split at parsed
    · cases parsed
    · rename_i ep' ends'
      obtain rfl := Except.ok.inj (ends.symm.trans ends')
      obtain ⟨items, inner, rfl⟩ := map_ok parsed
      intro depth ms s
      rw [matchItems_item ⟨start, close, stop, balance, frontier, back⟩ ⟨ends, rfl⟩]
      exact (ih inner).single

/-- A pattern that is read and passes the check matches by the first of its results. -/
def ValidPattern (p : Bytes) (items : List PatternItem) : Prop := parse p = .ok items ∧ valid 1 [] items

theorem ValidPattern.matchAt {p : Bytes} {items : List PatternItem} (good : ValidPattern p items) (src s : Bytes) :
    matchAt src s p = .ok (results src items [] s).head? := by
  rw [LibString.matchAt, nested_of_lt (by decide)]
  rcases follows_parse src good.1 1 [] s with result | ⟨e, -, bad⟩
  · exact result
  · exact absurd good.2 bad

end Items

end OmniaJit.Lua.LibString
