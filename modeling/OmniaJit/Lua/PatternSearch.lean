import Mathlib.Algebra.Order.Ring.Int
import OmniaJit.Lua.PatternMatch

/-! # What a pattern accepts

`Accepts` says which texts the items of a pattern match and what they capture, with no order of trials. The
results of a pattern are what it accepts. Every capture stays within the subject, and a valid pattern leaves
no capture unfinished.
-/

namespace OmniaJit.Lua.LibString

section Repetitions

variable {single : UInt8 → Bool} {s t : Bytes}

def Suffix.Allows : Suffix → ℕ → Prop
  | .once, n => n = 1
  | .optional, n => n ≤ 1
  | .plus, n => 1 ≤ n
  | _, _ => True

/-- The texts an item with its suffix can match in front of `t`. -/
def Repeats (single : UInt8 → Bool) (suffix : Suffix) (s t : Bytes) : Prop :=
  ∃ taken, taken ++ t = s ∧ (∀ c ∈ taken, single c) ∧ suffix.Allows taken.length

theorem mem_runs : t ∈ runs single s ↔ ∃ taken, taken ++ t = s ∧ ∀ c ∈ taken, single c := by
  induction s with
  | nil =>
    rw [runs, List.mem_singleton]
    constructor
    · rintro rfl
      exact ⟨[], rfl, by simp⟩
    · rintro ⟨taken, whole, -⟩
      exact (List.append_eq_nil_iff.mp whole).2
  | cons c s ih =>
    rw [runs, List.mem_cons]
    constructor
    · rintro (rfl | later)
      · exact ⟨[], rfl, by simp⟩
      · split_ifs at later with holds
        · obtain ⟨taken, rfl, all⟩ := ih.mp later
          exact ⟨c :: taken, rfl, List.forall_mem_cons.mpr ⟨holds, all⟩⟩
        · cases later
    · rintro ⟨taken, whole, all⟩
      cases taken with
      | nil => exact .inl whole
      | cons c' taken =>
        obtain ⟨rfl, rfl⟩ := List.cons.inj whole
        obtain ⟨holds, all⟩ := List.forall_mem_cons.mp all
        rw [if_pos holds]
        exact .inr (ih.mpr ⟨taken, rfl, all⟩)

theorem repeats_one : (∃ taken, taken ++ t = s ∧ (∀ c ∈ taken, single c) ∧ taken.length = 1) ↔
    s.head?.any single ∧ s.tail = t := by
  constructor
  · rintro ⟨taken, rfl, all, one⟩
    obtain ⟨c, rfl⟩ := List.length_eq_one_iff.mp one
    exact ⟨all c (List.mem_singleton_self c), rfl⟩
  · rintro ⟨holds, rfl⟩
    cases s with
    | nil => cases holds
    | cons c s => exact ⟨[c], rfl, by simpa using holds, rfl⟩

theorem mem_rests (suffix : Suffix) : t ∈ suffix.rests single s ↔ Repeats single suffix s t := by
  cases suffix with
  | once =>
    rw [Suffix.rests, Repeats]
    simp only [Suffix.Allows, repeats_one]
    split_ifs with holds <;> simp [holds, eq_comm]
  | optional =>
    have split : Repeats single .optional s t ↔ (s.head?.any single ∧ s.tail = t) ∨ s = t := by
      rw [← repeats_one, Repeats]
      constructor
      · rintro ⟨taken, whole, all, few⟩
        rcases Nat.le_one_iff_eq_zero_or_eq_one.mp few with zero | one
        · rw [List.length_eq_zero_iff.mp zero] at whole
          exact .inr whole.symm
        · exact .inl ⟨taken, whole, all, one⟩
      · rintro (⟨taken, whole, all, one⟩ | rfl)
        · exact ⟨taken, whole, all, one.le⟩
        · exact ⟨[], rfl, by simp, Nat.zero_le _⟩
    rw [Suffix.rests, split]
    split_ifs with holds <;> simp [holds, eq_comm]
  | star =>
    rw [Suffix.rests, List.mem_reverse, mem_runs, Repeats]
    simp only [Suffix.Allows, and_true]
  | minus =>
    rw [Suffix.rests, mem_runs, Repeats]
    simp only [Suffix.Allows, and_true]
  | plus =>
    rw [Suffix.rests, Repeats]
    constructor
    · intro member
      split_ifs at member with holds
      · obtain ⟨taken, whole, all⟩ := mem_runs.mp (List.mem_reverse.mp member)
        cases s with
        | nil => cases holds
        | cons c s =>
          exact ⟨c :: taken, congrArg (c :: ·) whole, List.forall_mem_cons.mpr ⟨by simpa using holds, all⟩,
            Nat.succ_le_succ (Nat.zero_le _)⟩
      · cases member
    · rintro ⟨taken, rfl, all, some⟩
      cases taken with
      | nil => cases some
      | cons c taken =>
        obtain ⟨holds, all⟩ := List.forall_mem_cons.mp all
        rw [if_pos (by simpa using holds), List.mem_reverse, mem_runs]
        exact ⟨taken, rfl, all⟩

end Repetitions

section Balance

variable {b e : UInt8}

/-- How much further a character closes the brackets. -/
def closing (b e c : UInt8) : ℤ := if c = e then 1 else if c = b then -1 else 0

/-- The brackets of `w` close `n` open ones, and close them only at its end. -/
def Closes (b e : UInt8) (n : ℤ) (w : Bytes) : Prop :=
  (w.map (closing b e)).sum = n ∧ ∀ v, v <+: w → v ≠ w → (v.map (closing b e)).sum < n

theorem closes_zero {w : Bytes} : Closes b e 0 w ↔ w = [] := by
  constructor
  · rintro ⟨-, early⟩
    by_contra nonempty
    exact absurd (early [] List.nil_prefix (Ne.symm nonempty)) (lt_irrefl (0 : ℤ))
  · rintro rfl
    exact ⟨rfl, fun v short other => absurd (List.prefix_nil.mp short) other⟩

theorem closes_cons {n : ℤ} (pos : 0 < n) {c : UInt8} {w : Bytes} :
    Closes b e n (c :: w) ↔ Closes b e (n - closing b e c) w := by
  rw [Closes, List.map_cons, List.sum_cons, ← eq_sub_iff_add_eq']
  refine and_congr_right fun _ => ⟨fun early v short other => ?_, fun early v short other => ?_⟩
  · have before := early (c :: v) ((List.prefix_cons_inj c).mpr short) fun same => other (List.cons.inj same).2
    rw [List.map_cons, List.sum_cons] at before
    exact lt_sub_iff_add_lt'.mpr before
  · cases v with
    | nil => exact pos
    | cons c' v =>
      obtain ⟨rfl, inner⟩ := List.cons_prefix_cons.mp short
      rw [List.map_cons, List.sum_cons]
      exact lt_sub_iff_add_lt'.mp (early v inner fun same => other (same ▸ rfl))

/-- `matchbalance` stops at the bracket that closes the first one. -/
theorem balance_eq_some {n : ℕ} (pos : 0 < n) {s t : Bytes} :
    balance b e n s = some t ↔ ∃ w, w ++ t = s ∧ Closes b e n w := by
  induction s generalizing n with
  | nil =>
    rw [balance]
    constructor
    · intro none
      cases none
    · rintro ⟨w, whole, zero, -⟩
      rw [(List.append_eq_nil_iff.mp whole).1] at zero
      exact absurd (Int.natCast_inj.mp zero) pos.ne
  | cons c s ih =>
    have first : (∃ w, w ++ t = c :: s ∧ Closes b e n w) ↔
        ∃ w, w ++ t = s ∧ Closes b e (n - closing b e c) w := by
      constructor
      · rintro ⟨w, whole, closes⟩
        cases w with
        | nil => exact absurd (Int.natCast_inj.mp closes.1) pos.ne
        | cons c' w =>
          obtain ⟨rfl, rfl⟩ := List.cons.inj whole
          exact ⟨w, rfl, (closes_cons (Int.natCast_pos.mpr pos)).mp closes⟩
      · rintro ⟨w, rfl, closes⟩
        exact ⟨c :: w, rfl, (closes_cons (Int.natCast_pos.mpr pos)).mpr closes⟩
    rw [balance, first, closing]
    split_ifs with close one opens
    · subst one
      simp only [Nat.cast_one, sub_self, closes_zero, exists_eq_right, List.nil_append, Option.some_inj, eq_comm]
    · rw [ih (by omega), Nat.cast_sub pos, Nat.cast_one]
    · rw [ih (by omega), Nat.cast_add, Nat.cast_one, sub_neg_eq_add]
    · rw [ih pos, sub_zero]

end Balance

section Acceptance

variable {src : Bytes}

/-- The character before the position `s`, and a NUL at the start. -/
def previous (src s : Bytes) : UInt8 :=
  if s.length = src.length then 0 else src.getD (src.length - s.length - 1) 0

/-- What an item accepts at `s` and leaves behind. -/
def PatternItem.Accepts (src : Bytes) (ms : List Capture) (s : Bytes) : PatternItem → Bytes × List Capture → Prop
  | .start, r => r = (s, ms ++ [⟨s, .unfinished⟩])
  | .position, r => r = (s, ms ++ [⟨s, .position⟩])
  | .close, r => ∃ l, capture_to_close ms = some l ∧ r = (s, closed ms s l)
  | .balance b e, r => r.2 = ms ∧ ∃ w, s = b :: w ++ r.1 ∧ Closes b e 1 w
  | .frontier set, r =>
    r = (s, ms) ∧ ¬ matchbracketclass (previous src s) set ∧ matchbracketclass (s.headD 0) set
  | .back l, r => '1'.toUInt8 ≤ l ∧ r.2 = ms ∧ ∃ capture text, ms[l.toNat - '1'.toNat]? = some capture ∧
      capture.len = .closed text.length ∧ text <+: capture.init ∧ text ++ r.1 = s
  | .stop, r => r = (s, ms) ∧ s = []
  | .single item suffix, r => r.2 = ms ∧ Repeats (singlematch · item) suffix s r.1

/-- The texts that the items of a pattern match, one behind the other. -/
def Accepts (src : Bytes) : List PatternItem → List Capture → Bytes → Bytes × List Capture → Prop
  | [], ms, s, r => r = (s, ms)
  | item :: p, ms, s, r => ∃ next, item.Accepts src ms s next ∧ Accepts src p next.2 next.1 r

theorem match_capture_eq_some {ms : List Capture} {s t : Bytes} {l : UInt8} :
    match_capture ms s l = .ok (some t) ↔
      '1'.toUInt8 ≤ l ∧ ∃ capture text, ms[l.toNat - '1'.toNat]? = some capture ∧
        capture.len = .closed text.length ∧ text <+: capture.init ∧ text ++ t = s := by
  rw [match_capture]
  split_ifs with low
  · simp [UInt8.not_le.mpr low]
  · rw [eq_true (UInt8.not_lt.mp low), true_and]
    cases ms[l.toNat - '1'.toNat]? with
    | none => simp
    | some capture =>
      dsimp only
      cases len : capture.len with
      | unfinished => simp [len]
      | position => simp [len]
      | closed n =>
        simp only [Except.ok.injEq, Option.some_inj, exists_and_left, exists_eq_left', len, Extent.closed.injEq]
        constructor
        · intro taken
          split_ifs at taken with same
          obtain rfl := Option.some.inj taken
          refine ⟨s.take n, ?_, ?_, List.take_append_drop n s⟩
          · rw [List.length_take, Nat.min_eq_left same.1]
          · rw [← same.2]
            exact List.take_prefix n capture.init
        · rintro ⟨text, rfl, ⟨back, whole⟩, rfl⟩
          rw [if_pos, List.drop_left]
          refine ⟨by simp, ?_⟩
          rw [← whole, List.take_left, List.take_left]

theorem mem_step (item : PatternItem) {ms : List Capture} {s : Bytes} {r : Bytes × List Capture} :
    r ∈ item.step src ms s ↔ item.Accepts src ms s r := by
  obtain ⟨t, ms'⟩ := r
  cases item with
  | start => exact List.mem_singleton
  | position => exact List.mem_singleton
  | close => simp [PatternItem.step, PatternItem.Accepts, eq_comm]
  | balance b e =>
    cases s with
    | nil => simp [PatternItem.step, PatternItem.Accepts]
    | cons c s =>
      simp only [PatternItem.step, PatternItem.Accepts, List.mem_map, Option.mem_toList, Prod.mk.injEq,
        List.cons_append]
      split_ifs with open_
      · subst open_
        simp only [balance_eq_some Nat.one_pos, Nat.cast_one, List.cons.injEq, true_and]
        constructor
        · rintro ⟨_, ⟨w, whole, closes⟩, rfl, rfl⟩
          exact ⟨rfl, w, whole.symm, closes⟩
        · rintro ⟨rfl, w, whole, closes⟩
          exact ⟨t, ⟨w, whole.symm, closes⟩, rfl, rfl⟩
      · simp [open_]
  | frontier set =>
    have test : LibString.frontier src s set = true ↔
        ¬ matchbracketclass (previous src s) set ∧ matchbracketclass (s.headD 0) set := by
      simp [LibString.frontier, previous]
    simp only [PatternItem.step, PatternItem.Accepts, ← test]
    split_ifs with holds <;> simp [holds]
  | back l =>
    simp only [PatternItem.step, PatternItem.Accepts]
    rw [and_left_comm, ← match_capture_eq_some]
    split
    · rename_i u result
      simp [result, and_comm, eq_comm]
    · rename_i other
      simp only [List.not_mem_nil, false_iff, not_and]
      exact fun _ result => other t result
  | stop =>
    simp only [PatternItem.step, PatternItem.Accepts]
    split_ifs with last <;> simp [last]
  | single item suffix =>
    simp only [PatternItem.step, PatternItem.Accepts, List.mem_map, mem_rests, Prod.mk.injEq]
    constructor
    · rintro ⟨u, repeats, rfl, rfl⟩
      exact ⟨rfl, repeats⟩
    · rintro ⟨rfl, repeats⟩
      exact ⟨t, repeats, rfl, rfl⟩

/-- The results of a pattern are what it accepts. -/
theorem mem_results {items : List PatternItem} {ms : List Capture} {s : Bytes} {r : Bytes × List Capture} :
    r ∈ results src items ms s ↔ Accepts src items ms s r := by
  induction items generalizing ms s with
  | nil => exact List.mem_singleton
  | cons item p ih => simp only [results, Accepts, List.mem_flatMap, mem_step, ih]

theorem head?_results_eq_none {items : List PatternItem} {s : Bytes} {ms : List Capture}
    (none : (results src items ms s).head? = none) (r : Bytes × List Capture) : ¬ Accepts src items ms s r := by
  rw [← mem_results, List.head?_eq_none_iff.mp none]
  exact List.not_mem_nil

theorem Accepts.of_head? {items : List PatternItem} {s : Bytes} {ms : List Capture} {r : Bytes × List Capture}
    (found : (results src items ms s).head? = some r) : Accepts src items ms s r :=
  mem_results.mp (List.mem_of_mem_head? found)

/-- The matcher gives the first of the texts a pattern accepts, or NULL if it accepts none. It can fail only for a
pattern that does not pass the check. -/
theorem matchAt_accepts {p : Bytes} {items : List PatternItem} (parsed : parse p = .ok items) (src s : Bytes) :
    (matchAt src s p = .ok (results src items [] s).head? ∨
      ∃ e, matchAt src s p = .error e ∧ ¬ valid 1 [] items) ∧
    ∀ r, r ∈ results src items [] s ↔ Accepts src items [] s r := by
  refine ⟨?_, fun r => mem_results⟩
  rw [matchAt, nested_of_lt (by decide)]
  exact follows_parse src parsed 1 [] s

/-- A word on both sides of a sign. -/
def pairItems : List PatternItem :=
  [.start, .single (ascii "%w") .plus, .close, .single (ascii "=") .once, .back '1'.toUInt8]

theorem matchAt_accepts_pair : ∃ r, r ∈ results (ascii "ab=ab") pairItems [] (ascii "ab=ab") ∧
    Accepts (ascii "ab=ab") pairItems [] (ascii "ab=ab") r ∧
    matchAt (ascii "ab=ab") (ascii "ab=ab") (ascii "(%w+)=%1") = .ok (some r) := by
  have parsed : parse (ascii "(%w+)=%1") = .ok pairItems := by decide +kernel
  obtain ⟨first | ⟨e, -, bad⟩, all⟩ := matchAt_accepts parsed (ascii "ab=ab") (ascii "ab=ab")
  · have member : (results (ascii "ab=ab") pairItems [] (ascii "ab=ab")).head?.isSome := by decide +kernel
    obtain ⟨r, here⟩ := Option.isSome_iff_exists.mp member
    have inside := List.mem_of_mem_head? here
    exact ⟨r, inside, (all r).mp inside, first.trans (congrArg _ here)⟩
  · exact absurd (by decide) bad

end Acceptance

section Captures

variable {src s : Bytes} {ms : List Capture} {r : Bytes × List Capture}

/-- The position and the captures lie within the subject, the captures before the position. -/
def Inside (src s : Bytes) (ms : List Capture) : Prop :=
  s <:+ src ∧ ∀ capture ∈ ms, s <:+ capture.init ∧ capture.init <:+ src ∧
    ∀ n, capture.len = .closed n → n ≤ capture.init.length - s.length

theorem Inside.further {t : Bytes} (inside : Inside src s ms) (suffix : t <:+ s) : Inside src t ms := by
  refine ⟨suffix.trans inside.1, fun capture member => ?_⟩
  obtain ⟨front, back, short⟩ := inside.2 capture member
  exact ⟨suffix.trans front, back, fun n closed => (short n closed).trans (by have := suffix.length_le; omega)⟩

theorem Inside.append (inside : Inside src s ms) (len : Extent) (opened : ∀ n, len ≠ .closed n) :
    Inside src s (ms ++ [⟨s, len⟩]) := by
  refine ⟨inside.1, fun capture member => ?_⟩
  rcases List.mem_append.mp member with old | new
  · exact inside.2 capture old
  · obtain rfl := List.mem_singleton.mp new
    exact ⟨List.suffix_rfl, inside.1, fun n closed => absurd closed (opened n)⟩

theorem Inside.closed (inside : Inside src s ms) (l : ℕ) : Inside src s (closed ms s l) := by
  refine ⟨inside.1, fun capture member => ?_⟩
  obtain ⟨j, here⟩ := List.mem_iff_getElem?.mp member
  rw [LibString.closed, List.getElem?_modify, Option.map_eq_map, Option.map_eq_some_iff] at here
  obtain ⟨old, found, rfl⟩ := here
  obtain ⟨front, back, short⟩ := inside.2 old (List.mem_of_getElem? found)
  split_ifs
  · refine ⟨front, back, fun n closed => ?_⟩
    cases closed
    exact Nat.le_refl _
  · exact ⟨front, back, short⟩

/-- An item keeps the captures within the subject. -/
theorem PatternItem.Accepts.inside {whole : Bytes} {item : PatternItem} (accepts : item.Accepts src ms s r)
    (inside : Inside whole s ms) : Inside whole r.1 r.2 := by
  cases item with
  | start =>
    obtain rfl := accepts
    exact inside.append .unfinished fun n same => by cases same
  | position =>
    obtain rfl := accepts
    exact inside.append .position fun n same => by cases same
  | close =>
    obtain ⟨l, -, rfl⟩ := accepts
    exact inside.closed l
  | balance b e =>
    obtain ⟨same, w, rfl, -⟩ := accepts
    rw [same]
    exact inside.further (List.suffix_append ..)
  | frontier set =>
    obtain ⟨rfl, -⟩ := accepts
    exact inside
  | back l =>
    obtain ⟨-, same, capture, text, -, -, -, rfl⟩ := accepts
    rw [same]
    exact inside.further (List.suffix_append ..)
  | stop =>
    obtain ⟨rfl, -⟩ := accepts
    exact inside
  | single item suffix =>
    obtain ⟨same, taken, rfl, -⟩ := accepts
    rw [same]
    exact inside.further (List.suffix_append ..)

theorem Accepts.inside {whole : Bytes} {items : List PatternItem} (accepts : Accepts src items ms s r)
    (inside : Inside whole s ms) : Inside whole r.1 r.2 := by
  induction items generalizing ms s with
  | nil =>
    obtain rfl := accepts
    exact inside
  | cons item p ih =>
    obtain ⟨next, first, rest⟩ := accepts
    exact ih rest (first.inside inside)

theorem Accepts.suffix {items : List PatternItem} (accepts : Accepts src items [] s r) : r.1 <:+ s :=
  (accepts.inside ⟨List.suffix_rfl, fun _ member => absurd member List.not_mem_nil⟩).1

/-- An item leaves the captures that the check of a pattern expects. -/
theorem PatternItem.Accepts.valid {item : PatternItem} {p : List PatternItem} {depth : ℕ}
    (accepts : item.Accepts src ms s r) (good : valid depth (kinds ms) (item :: p)) :
    ∃ depth, LibString.valid depth (kinds r.2) p := by
  cases item with
  | start =>
    obtain rfl := accepts
    rw [LibString.valid, decide_eq_true_eq] at good
    exact ⟨depth + 1, by rw [kinds_append]; exact good.2.2⟩
  | position =>
    obtain rfl := accepts
    rw [LibString.valid, decide_eq_true_eq] at good
    exact ⟨depth + 1, by rw [kinds_append]; exact good.2.2⟩
  | close =>
    obtain ⟨l, last, rfl⟩ := accepts
    rw [LibString.valid, kind_to_close_kinds, last] at good
    exact ⟨depth + 1, by rw [kinds_closed]; exact (of_decide_eq_true good).2⟩
  | balance b e =>
    rw [accepts.1]
    exact ⟨depth, good⟩
  | frontier set =>
    rw [accepts.1]
    exact ⟨depth, good⟩
  | back l =>
    rw [accepts.2.1]
    exact ⟨depth, (of_decide_eq_true good).2.2⟩
  | stop =>
    rw [accepts.1]
    exact ⟨depth, good⟩
  | single item suffix =>
    rw [accepts.1]
    rw [LibString.valid] at good
    split_ifs at good
    · exact ⟨depth, good⟩
    · exact ⟨depth + 1, (of_decide_eq_true good).2⟩

/-- No capture is left unfinished. -/
theorem Accepts.finished {items : List PatternItem} {depth : ℕ} (accepts : Accepts src items ms s r)
    (good : valid depth (kinds ms) items) : ∀ capture ∈ r.2, capture.len ≠ .unfinished := by
  induction items generalizing depth ms s with
  | nil =>
    obtain rfl := accepts
    intro capture member open_
    rw [valid, List.all_eq_true] at good
    have kind := good _ (List.mem_map_of_mem member)
    rw [open_] at kind
    cases kind
  | cons item p ih =>
    obtain ⟨next, first, rest⟩ := accepts
    obtain ⟨depth, later⟩ := first.valid good
    exact ih rest later

/-- What Lua gets for a capture that is not unfinished. -/
def Capture.value (src : Bytes) (capture : Capture) : CaptureValue :=
  match capture.len with
  | .closed len => .text (capture.init.take len)
  | _ => .position (src.length - capture.init.length + 1)

/-- The values of a match: its captures, or the whole of it if there are none. -/
def values (src : Bytes) (ms : List Capture) (whole : Option Bytes) : List CaptureValue :=
  if ms = [] then whole.toList.map CaptureValue.text else ms.map (Capture.value src)

theorem push_onecapture_finished {i : ℕ} {capture : Capture} (here : ms[i]? = some capture)
    (finished : capture.len ≠ .unfinished) (whole : Option Bytes) :
    push_onecapture src ms i whole = .ok (capture.value src) := by
  unfold push_onecapture Capture.value
  rw [here]
  dsimp only
  cases len : capture.len with
  | unfinished => exact absurd len finished
  | position => rfl
  | closed n => rfl

theorem mapM_ok {α β ε : Type} {f : α → Except ε β} {g : α → β} {l : List α} (all : ∀ x ∈ l, f x = .ok (g x)) :
    l.mapM f = .ok (l.map g) := by
  induction l with
  | nil => rfl
  | cons x l ih =>
    rw [List.mapM_cons, all x (List.mem_cons_self ..), ih fun y member => all y (List.mem_cons_of_mem x member)]
    rfl

theorem push_captures_finished (finished : ∀ capture ∈ ms, capture.len ≠ .unfinished) (whole : Option Bytes) :
    push_captures src ms whole = .ok (values src ms whole) := by
  rw [push_captures, values]
  cases ms with
  | nil => cases whole <;> rfl
  | cons capture rest =>
    rw [if_neg (by simp), if_neg (by simp)]
    have each (i : ℕ) (member : i ∈ List.range (capture :: rest).length) :
        push_onecapture src (capture :: rest) i whole =
          .ok (((capture :: rest)[i]?.getD capture).value src) := by
      have here := List.getElem?_eq_getElem (List.mem_range.mp member)
      rw [here, Option.getD_some]
      exact push_onecapture_finished here (finished _ (List.getElem_mem _)) whole
    rw [mapM_ok each]
    congr 1
    apply List.ext_getElem?
    intro i
    rw [List.getElem?_map, List.getElem?_map]
    by_cases inside : i < (capture :: rest).length
    · rw [List.getElem?_range inside, List.getElem?_eq_getElem inside]
      simp [List.getElem?_eq_getElem inside]
    · rw [List.getElem?_eq_none (by simpa using inside), List.getElem?_eq_none (Nat.not_lt.mp inside)]
      rfl

end Captures

end OmniaJit.Lua.LibString
