import Mathlib.Algebra.Order.Group.Nat
import Mathlib.Data.List.GetD
import Mathlib.Logic.Function.Basic

/-! # Files written through several offsets

Every open file has an offset of its own, so writers that opened the same file separately write
over each other. At each position the file ends up with the byte written there last, and with its
old byte where none was written.
-/

namespace OmniaJit.Posix

variable {ι β : Type*} [DecidableEq ι]

/-- A file after `bytes` are written at `offset`. A gap before it is filled with `zero`. -/
def writeAt (zero : β) (content : List β) (offset : ℕ) (bytes : List β) : List β :=
  (content ++ List.replicate (offset - content.length) zero).take offset ++ bytes ++
    content.drop (offset + bytes.length)

section Single

variable {zero : β} {content : List β} {offset : ℕ}

theorem writeAt_of_le (within : offset ≤ content.length) (bytes : List β) :
    writeAt zero content offset bytes =
      content.take offset ++ bytes ++ content.drop (offset + bytes.length) := by
  rw [writeAt, Nat.sub_eq_zero_of_le within, List.replicate_zero, List.append_nil]

@[simp] theorem writeAt_nil (within : offset ≤ content.length) :
    writeAt zero content offset [] = content := by
  rw [writeAt_of_le within, List.append_nil, List.length_nil, Nat.add_zero, List.take_append_drop]

theorem length_writeAt (within : offset ≤ content.length) (bytes : List β) :
    (writeAt zero content offset bytes).length = max content.length (offset + bytes.length) := by
  rw [writeAt_of_le within, List.length_append, List.length_append, List.length_take, List.length_drop]
  omega

theorem getElem?_writeAt (within : offset ≤ content.length) (b : β) (i : ℕ) :
    (writeAt zero content offset [b])[i]? = if i = offset then some b else content[i]? := by
  have start : (content.take offset).length = offset := by
    rw [List.length_take, Nat.min_eq_left within]
  rw [writeAt_of_le within, List.append_assoc]
  rcases Nat.lt_trichotomy i offset with before | rfl | after
  · rw [if_neg (Nat.ne_of_lt before), List.getElem?_append_left (by omega),
      List.getElem?_take_of_lt before]
  · rw [if_pos rfl, List.getElem?_append_right (by omega), start, Nat.sub_self]
    rfl
  · rw [if_neg (Nat.ne_of_gt after), List.getElem?_append_right (by omega), start,
      List.getElem?_append_right (by simp; omega), List.getElem?_drop]
    congr 1
    simp only [List.length_singleton]
    omega

/-- Bytes written at once are bytes written one after the other. -/
theorem writeAt_cons (within : offset ≤ content.length) (b : β) (bytes : List β) :
    writeAt zero content offset (b :: bytes) =
      writeAt zero (writeAt zero content offset [b]) (offset + 1) bytes := by
  have length := @length_writeAt _ zero _ _ within [b]
  have next : offset + 1 ≤ (writeAt zero content offset [b]).length := by
    rw [length, List.length_singleton]
    exact Nat.le_max_right _ _
  have start : (content.take offset ++ [b]).length = offset + 1 := by
    rw [List.length_append, List.length_take, Nat.min_eq_left within, List.length_singleton]
  rw [writeAt_of_le next, writeAt_of_le within, writeAt_of_le within, List.take_left' start,
    List.drop_append, start,
    List.drop_eq_nil_of_le (show (content.take offset ++ [b]).length ≤ _ by omega), List.nil_append,
    List.drop_drop]
  have rest : offset + (b :: bytes).length =
      offset + [b].length + (offset + 1 + bytes.length - (offset + 1)) := by
    simp only [List.length_cons, List.length_nil]
    omega
  rw [rest]
  simp only [List.append_assoc, List.cons_append, List.nil_append]

end Single

/-- The bytes of a log of writers, each with its writer's offset at the time. -/
def placed (offset : ι → ℕ) : List (ι × β) → List (ℕ × β)
  | [] => []
  | (writer, b) :: log =>
      (offset writer, b) :: placed (Function.update offset writer (offset writer + 1)) log

/-- The byte that is written last at position `i`. -/
def landed (offset : ι → ℕ) (log : List (ι × β)) (i : ℕ) : Option β :=
  (((placed offset log).filter fun entry => entry.1 = i).getLast?).map Prod.snd

/-- The file once every byte of the log has been written. -/
def contentAfter (zero : β) (offset : ι → ℕ) (content : List β) (log : List (ι × β)) : List β :=
  (placed offset log).foldl (fun content entry => writeAt zero content entry.1 [entry.2]) content

section Log

variable {zero : β} {offset : ι → ℕ} {content : List β} {log : List (ι × β)}

theorem landed_cons (writer : ι) (b : β) (i : ℕ) : landed offset ((writer, b) :: log) i =
    (landed (Function.update offset writer (offset writer + 1)) log i).or
      (if i = offset writer then some b else none) := by
  simp only [landed, placed, List.filter_cons, decide_eq_true_eq, eq_comm (a := i)]
  split_ifs
  · rw [List.getLast?_cons]
    cases ((placed (Function.update offset writer (offset writer + 1)) log).filter
      fun entry => entry.1 = i).getLast? <;> rfl
  · rw [Option.or_none]

/-- No writer's offset is past the end. -/
def Inside (offset : ι → ℕ) (content : List β) : Prop := ∀ writer, offset writer ≤ content.length

theorem Inside.write (inside : Inside offset content) (zero : β) (writer : ι) (bytes : List β) :
    Inside (Function.update offset writer (offset writer + bytes.length))
      (writeAt zero content (offset writer) bytes) := by
  intro other
  have length := @length_writeAt _ zero _ _ (inside writer) bytes
  rcases eq_or_ne other writer with rfl | different
  · rw [Function.update_self]
    omega
  · have := inside other
    rw [Function.update_of_ne different]
    omega

/-- The last byte written at a position is the one that stays. -/
theorem getElem?_contentAfter (inside : Inside offset content) (i : ℕ) :
    (contentAfter zero offset content log)[i]? = (landed offset log i).or content[i]? := by
  induction log generalizing offset content with
  | nil => rfl
  | cons entry log ih =>
    obtain ⟨writer, b⟩ := entry
    have later := ih (inside.write zero writer [b])
    rw [landed_cons, Option.or_assoc]
    refine later.trans (congrArg _ ?_)
    rw [getElem?_writeAt (inside writer)]
    split_ifs <;> rfl

/-- Bytes that one writer writes at once. -/
theorem contentAfter_append (inside : Inside offset content) (writer : ι) (bytes : List β) :
    contentAfter zero offset content (bytes.map (writer, ·) ++ log) =
      contentAfter zero (Function.update offset writer (offset writer + bytes.length))
        (writeAt zero content (offset writer) bytes) log := by
  induction bytes generalizing offset content with
  | nil =>
    rw [writeAt_nil (inside writer), List.length_nil, Nat.add_zero, Function.update_eq_self]
    rfl
  | cons b bytes ih =>
    have later := ih (inside.write zero writer [b])
    rw [List.length_singleton, Function.update_self, Function.update_idem,
      ← writeAt_cons (inside writer)] at later
    rw [List.length_cons, Nat.add_comm bytes.length, ← Nat.add_assoc]
    exact later

/-- Every writer covers the positions from its offset on, one for each byte. -/
theorem landed_isSome_iff (i : ℕ) : (landed offset log i).isSome ↔
    ∃ writer, offset writer ≤ i ∧ i < offset writer + log.countP (·.1 = writer) := by
  induction log generalizing offset with
  | nil => simp [landed, placed]
  | cons entry log ih =>
    obtain ⟨writer, b⟩ := entry
    rw [landed_cons, Option.isSome_or, Bool.or_eq_true, ih]
    constructor
    · rintro (⟨other, above, below⟩ | here)
      · refine ⟨other, ?_⟩
        rw [List.countP_cons]
        rcases eq_or_ne other writer with rfl | different
        · rw [Function.update_self] at above below
          simp only [decide_true, if_true]
          omega
        · rw [Function.update_of_ne different] at above below
          omega
      · obtain rfl : i = offset writer := by
          by_contra elsewhere
          simp [elsewhere] at here
        refine ⟨writer, le_rfl, ?_⟩
        rw [List.countP_cons]
        simp
    · rintro ⟨other, above, below⟩
      rw [List.countP_cons] at below
      rcases eq_or_ne other writer with rfl | different
      · simp only [decide_true, if_true] at below
        rcases Nat.eq_or_lt_of_le above with rfl | later
        · simp
        · refine .inl ⟨other, ?_⟩
          rw [Function.update_self]
          omega
      · refine .inl ⟨other, ?_⟩
        rw [Function.update_of_ne different]
        simp only [Ne.symm different, decide_false, Bool.false_eq_true, if_false] at below
        exact ⟨above, below⟩

/-- A single writer fills the positions in order. -/
theorem landed_of_single {writer : ι} (single : ∀ entry ∈ log, entry.1 = writer) (i : ℕ) :
    landed offset log (offset writer + i) = log[i]?.map Prod.snd := by
  induction log generalizing offset i with
  | nil => rfl
  | cons entry log ih =>
    obtain ⟨other, b⟩ := entry
    obtain rfl : other = writer := single _ (List.mem_cons_self ..)
    have rest : ∀ entry ∈ log, entry.1 = other :=
      fun entry member => single entry (List.mem_cons_of_mem _ member)
    rw [landed_cons]
    cases i with
    | zero =>
      have untouched : landed (Function.update offset other (offset other + 1)) log (offset other) = none := by
        rw [← Option.not_isSome_iff_eq_none, landed_isSome_iff]
        rintro ⟨writer, above, below⟩
        rcases eq_or_ne writer other with rfl | different
        · rw [Function.update_self] at above
          omega
        · have silent : log.countP (·.1 = writer) = 0 := by
            rw [List.countP_eq_zero]
            intro entry member
            simpa [rest entry member] using different.symm
          omega
      simp [untouched]
    | succ i =>
      have shifted := @ih (Function.update offset other (offset other + 1)) rest i
      rw [Function.update_self] at shifted
      rw [if_neg (by omega), Option.or_none, List.getElem?_cons_succ, ← shifted]
      congr 1
      omega

end Log

end OmniaJit.Posix
