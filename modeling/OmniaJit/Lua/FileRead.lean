import Mathlib.Data.List.TakeWhile

/-! # Reading from a file

`file:read` for a number and for `"*line"`, as `lib_io.c` does them. The line reader collects what
`fgets` returns in a buffer and measures each piece with `strlen`, so it does not see a line end
that comes after a NUL byte and goes on into the next line.
-/

namespace OmniaJit.Lua

abbrev Bytes := List UInt8

def newline : UInt8 := 10

/-- The C library's `BUFSIZ`, which the C standard bounds from below. -/
structure Stdio where
  BUFSIZ : ℕ
  large : 256 ≤ BUFSIZ

/-- `LUAL_BUFFERSIZE`. -/
def Stdio.bufferSize (io : Stdio) : ℕ := if io.BUFSIZ > 16384 then 8192 else io.BUFSIZ

theorem Stdio.bufferSize_large (io : Stdio) : 64 < io.bufferSize := by
  have := io.large
  unfold Stdio.bufferSize
  split_ifs <;> omega

/-- `fgets` with room for `room` characters and the final NUL: a piece of the stream that ends with
the first line end, and what is left. -/
def fgets : ℕ → Bytes → Bytes × Bytes
  | 0, fp => ([], fp)
  | _ + 1, [] => ([], [])
  | room + 1, c :: fp =>
      if c = newline then ([c], fp) else (c :: (fgets room fp).1, (fgets room fp).2)

/-- The part of a piece that `strlen` counts. -/
def seen (piece : Bytes) : Bytes := piece.takeWhile (· ≠ 0)

/-- The buffer size once `n` bytes are used. -/
def grow (m n : ℕ) : ℕ := if n ≥ m - 64 then m + m else m

/-- `io_file_readline`. The buffer has size `m`, and `buf` is its first `n` bytes. The result is
the line without its end (nil if nothing was read) and the rest of the stream. -/
def readLineLoop : ℕ → ℕ → Bytes → Bool → Bytes → Option Bytes × Bytes
  | 0, _, _, _, fp => (none, fp)
  | fuel + 1, m, buf, ok, fp =>
      if fp = [] then (if ok then some buf else none, [])
      else
        let (piece, fp) := fgets (m - buf.length - 1) fp
        let buf := buf ++ seen piece
        let ok := ok || buf ≠ []
        if buf.getLast? = some newline then (if ok then some buf.dropLast else none, fp)
        else readLineLoop fuel (grow m buf.length) buf ok fp

/-- `f:read("*line")`. -/
def readLine (io : Stdio) (fp : Bytes) : Option Bytes × Bytes :=
  readLineLoop (fp.length + 1) io.bufferSize [] false fp

/-- `f:read(m)`. -/
def readLen (m : ℕ) (fp : Bytes) : Option Bytes × Bytes :=
  (if fp.take m = [] then none else some (fp.take m), fp.drop m)

/-- What follows the first line end. -/
def afterLine (fp : Bytes) : Bytes := (fp.dropWhile (· ≠ newline)).tail

/-- The pieces in which `fgets` hands over the first line. -/
def linePieces : ℕ → ℕ → ℕ → Bytes → List Bytes
  | 0, _, _, _ => []
  | fuel + 1, m, n, fp =>
      if fp = [] then []
      else
        let (piece, fp) := fgets (m - n - 1) fp
        piece :: if piece.getLast? = some newline then [] else
          linePieces fuel (grow m (n + (seen piece).length)) (n + (seen piece).length) fp

/-- The line reader finds the end of the line: nothing follows the line, or the last piece of it
has no NUL byte. -/
def LineEndSeen (io : Stdio) (fp : Bytes) : Prop :=
  afterLine fp = [] ∨ ∀ piece ∈ (linePieces (fp.length + 1) io.bufferSize 0 fp).getLast?, 0 ∉ piece

section Pieces

/-- A piece is the line with its end, or is cut before the end. -/
theorem fgets_spec (room : ℕ) (fp : Bytes) :
    (newline ∉ (fgets room fp).1 ∧ (fgets room fp).1 ++ (fgets room fp).2 = fp) ∨
      ∃ start, newline ∉ start ∧ (fgets room fp).1 = start ++ [newline] ∧
        fp = start ++ newline :: (fgets room fp).2 := by
  induction room generalizing fp with
  | zero => simp [fgets]
  | succ room ih =>
    cases fp with
    | nil => simp [fgets]
    | cons c fp =>
      rcases eq_or_ne c newline with rfl | ends
      · exact .inr ⟨[], by simp, by simp [fgets], by simp [fgets]⟩
      · have unfolded : fgets (room + 1) (c :: fp) = (c :: (fgets room fp).1, (fgets room fp).2) := by
          simp [fgets, ends]
        rw [unfolded]
        rcases ih fp with ⟨cut, whole⟩ | ⟨start, plain, piece, whole⟩
        · exact .inl ⟨by simp [Ne.symm ends, cut], by simp [whole]⟩
        · refine .inr ⟨c :: start, by simp [Ne.symm ends, plain], by simp [piece], ?_⟩
          rw [List.cons_append, ← whole]

theorem fgets_append (room : ℕ) (fp : Bytes) : (fgets room fp).1 ++ (fgets room fp).2 = fp := by
  rcases fgets_spec room fp with ⟨-, whole⟩ | ⟨start, -, piece, whole⟩
  · exact whole
  · rw [piece, List.append_assoc]
    exact whole.symm

theorem fgets_length (room : ℕ) (fp : Bytes) : (fgets room fp).1.length ≤ room := by
  induction room generalizing fp with
  | zero => simp [fgets]
  | succ room ih =>
    cases fp with
    | nil => simp [fgets]
    | cons c fp =>
      have tail := ih fp
      rcases eq_or_ne c newline with rfl | ends
      · simp [fgets]
      · simpa [fgets, ends] using tail

theorem fgets_progress {room : ℕ} (positive : 0 < room) {fp : Bytes} (more : fp ≠ []) :
    (fgets room fp).2.length < fp.length := by
  have whole := congrArg List.length (fgets_append room fp)
  have nonempty : (fgets room fp).1 ≠ [] := by
    obtain ⟨room, rfl⟩ := Nat.exists_eq_succ_of_ne_zero (Nat.ne_of_gt positive)
    cases fp with
    | nil => exact absurd rfl more
    | cons c fp => by_cases ends : c = newline <;> simp [fgets, ends]
  have positive := List.length_pos_iff.mpr nonempty
  rw [List.length_append] at whole
  omega

theorem length_seen_le (piece : Bytes) : (seen piece).length ≤ piece.length :=
  (List.takeWhile_prefix _).length_le

/-- A piece without a NUL byte is seen in full. -/
theorem seen_of_no_nul {piece : Bytes} (plain : 0 ∉ piece) : seen piece = piece := by
  rw [seen, List.takeWhile_eq_self_iff]
  intro c member
  simpa using fun same : c = 0 => plain (same ▸ member)

/-- A NUL byte hides the line end after it. -/
theorem newline_not_mem_seen {start : Bytes} (plain : newline ∉ start)
    (nul : 0 ∈ start ++ [newline]) : newline ∉ seen (start ++ [newline]) := by
  intro member
  rcases List.prefix_concat_iff.mp (List.takeWhile_prefix _ : seen (start ++ [newline]) <+: _) with
    whole | shorter
  · rw [← whole] at nul
    simpa using List.mem_takeWhile_imp nul
  · exact plain (shorter.subset member)

end Pieces

section Loop

variable {fuel m : ℕ} {buf : Bytes} {ok : Bool} {fp piece rest : Bytes}

/-- One round of the line reader. -/
theorem readLineLoop_round (more : fp ≠ []) (read : fgets (m - buf.length - 1) fp = (piece, rest)) :
    (readLineLoop (fuel + 1) m buf ok fp).2 =
      if (buf ++ seen piece).getLast? = some newline then rest
      else (readLineLoop fuel (grow m (buf ++ seen piece).length) (buf ++ seen piece)
        (ok || (buf ++ seen piece) ≠ []) rest).2 := by
  simp only [readLineLoop, if_neg more, read]
  split_ifs <;> rfl

theorem linePieces_round {n : ℕ} (more : fp ≠ []) (read : fgets (m - n - 1) fp = (piece, rest)) :
    linePieces (fuel + 1) m n fp = piece :: if piece.getLast? = some newline then [] else
      linePieces fuel (grow m (n + (seen piece).length)) (n + (seen piece).length) rest := by
  simp only [linePieces, if_neg more, read]

/-- The buffer always has room for one more piece. -/
theorem grow_room (room : buf.length + 64 < m) (short : piece.length ≤ m - buf.length - 1) :
    (buf ++ seen piece).length + 64 < grow m (buf ++ seen piece).length := by
  have := length_seen_le piece
  rw [List.length_append]
  unfold grow
  split_ifs <;> omega

/-- Every call that is not at the end of the file moves on. -/
theorem readLineLoop_length (fuel : ℕ) {m : ℕ} {buf : Bytes} {ok : Bool} {fp : Bytes}
    (room : buf.length + 64 < m) :
    (readLineLoop fuel m buf ok fp).2.length ≤ fp.length ∧
      (0 < fuel → fp ≠ [] → (readLineLoop fuel m buf ok fp).2.length < fp.length) := by
  induction fuel generalizing m buf ok fp with
  | zero => simp [readLineLoop]
  | succ fuel ih =>
    rcases eq_or_ne fp [] with rfl | more
    · simp [readLineLoop]
    · rcases read : fgets (m - buf.length - 1) fp with ⟨piece, rest⟩
      have progress : (fgets (m - buf.length - 1) fp).2.length < fp.length :=
        fgets_progress (by omega) more
      have short := fgets_length (m - buf.length - 1) fp
      rw [read] at progress short
      rw [readLineLoop_round more read]
      split_ifs with ends
      · exact ⟨Nat.le_of_lt progress, fun _ _ => progress⟩
      · have later := (@ih _ (buf ++ seen piece) (ok || (buf ++ seen piece) ≠ []) rest
          (grow_room room short)).1
        have less := Nat.lt_of_le_of_lt later progress
        exact ⟨Nat.le_of_lt less, fun _ _ => less⟩

theorem passed_of_plain {start : Bytes} (plain : newline ∉ start) :
    ∀ c ∈ start, (c ≠ newline : Bool) = true := by
  intro c member
  simpa using fun same : c = newline => plain (same ▸ member)

theorem afterLine_of_end {start rest : Bytes} (plain : newline ∉ start) :
    afterLine (start ++ newline :: rest) = rest := by
  rw [afterLine, List.dropWhile_append_of_pos (passed_of_plain plain)]
  simp

theorem afterLine_of_cut {start rest : Bytes} (plain : newline ∉ start) :
    afterLine (start ++ rest) = afterLine rest := by
  rw [afterLine, List.dropWhile_append_of_pos (passed_of_plain plain), afterLine]

theorem afterLine_cons {c : UInt8} (onward : c ≠ newline) (fp : Bytes) :
    afterLine (c :: fp) = afterLine fp := by
  have cut : newline ∉ [c] := by simpa using onward.symm
  exact afterLine_of_cut cut

theorem linePieces_ne_nil {n : ℕ} (more : fp ≠ []) : linePieces (fuel + 1) m n fp ≠ [] := by
  rw [linePieces_round more rfl]
  exact List.cons_ne_nil _ _

theorem not_ended (unended : newline ∉ buf.getLast?) (hidden : newline ∉ seen piece) :
    (buf ++ seen piece).getLast? ≠ some newline := by
  intro ended
  rw [List.getLast?_append, Option.or_eq_some_iff] at ended
  rcases ended with last | ⟨-, last⟩
  · exact hidden (List.mem_of_getLast? last)
  · exact unended last

/-- The reader stops behind the first line exactly when it sees the end of that line. -/
theorem readLineLoop_rest (fuel : ℕ) {m : ℕ} {buf : Bytes} {ok : Bool} {fp : Bytes}
    (enough : fp.length < fuel) (room : buf.length + 64 < m) (unended : newline ∉ buf.getLast?) :
    (readLineLoop fuel m buf ok fp).2 = afterLine fp ↔
      afterLine fp = [] ∨ ∀ piece ∈ (linePieces fuel m buf.length fp).getLast?, 0 ∉ piece := by
  induction fuel generalizing m buf ok fp with
  | zero => omega
  | succ fuel ih =>
    rcases eq_or_ne fp [] with rfl | more
    · simp [readLineLoop, afterLine]
    · rcases read : fgets (m - buf.length - 1) fp with ⟨piece, rest⟩
      have progress : (fgets (m - buf.length - 1) fp).2.length < fp.length :=
        fgets_progress (by omega) more
      have short := fgets_length (m - buf.length - 1) fp
      have spec := fgets_spec (m - buf.length - 1) fp
      rw [read] at progress short spec
      dsimp only at progress short spec
      rw [readLineLoop_round more read, linePieces_round more read]
      rcases spec with ⟨cut, whole⟩ | ⟨start, plain, rfl, whole⟩
      · have hidden : newline ∉ seen piece := fun member => cut ((List.takeWhile_prefix _).subset member)
        have onward := not_ended unended hidden
        have pieceOnward : piece.getLast? ≠ some newline := fun last => cut (List.mem_of_getLast? last)
        rw [if_neg onward, if_neg pieceOnward, ← whole, afterLine_of_cut cut,
          ih (by omega) (grow_room room short) onward, List.length_append]
        rcases eq_or_ne rest [] with rfl | done
        · simp [afterLine]
        · obtain ⟨fuel, rfl⟩ : ∃ fuel', fuel = fuel' + 1 := ⟨fuel - 1, by omega⟩
          rw [List.getLast?_cons_of_ne_nil (linePieces_ne_nil done)]
      · rw [whole, afterLine_of_end plain, List.getLast?_concat, if_pos rfl]
        by_cases nul : 0 ∈ start ++ [newline]
        · have onward := not_ended unended (newline_not_mem_seen plain nul)
          have later := @readLineLoop_length fuel _ (buf ++ seen (start ++ [newline]))
            (ok || (buf ++ seen (start ++ [newline])) ≠ []) rest (grow_room room short)
          rw [if_neg onward]
          rcases eq_or_ne rest [] with rfl | done
          · simpa using later.1
          · have less := later.2 (by omega) done
            simp only [done, false_or]
            constructor
            · intro same
              rw [same] at less
              omega
            · intro free
              exact absurd nul (free _ rfl)
        · rw [seen_of_no_nul nul, ← List.append_assoc, List.getLast?_concat, if_pos rfl]
          simp [nul]

/-- The line reader leaves what follows the first line exactly when it sees that line's end. -/
theorem readLine_rest (io : Stdio) (fp : Bytes) :
    (readLine io fp).2 = afterLine fp ↔ LineEndSeen io fp :=
  readLineLoop_rest (fp.length + 1) (Nat.lt_succ_self _)
    (by simpa using io.bufferSize_large) (by simp)

theorem readLine_length (io : Stdio) (fp : Bytes) :
    (readLine io fp).2.length ≤ fp.length ∧ (fp ≠ [] → (readLine io fp).2.length < fp.length) := by
  have moves := @readLineLoop_length (fp.length + 1) io.bufferSize [] false fp
    (by simpa using io.bufferSize_large)
  exact ⟨moves.1, moves.2 (Nat.succ_pos _)⟩

/-- The pieces hold nothing but the first line and its end. -/
theorem mem_linePieces (fuel : ℕ) {m n : ℕ} {fp piece : Bytes} {b : UInt8}
    (listed : piece ∈ linePieces fuel m n fp) (member : b ∈ piece) :
    b ∈ fp.takeWhile (· ≠ newline) ∨ b = newline := by
  induction fuel generalizing m n fp with
  | zero => simp [linePieces] at listed
  | succ fuel ih =>
    rcases eq_or_ne fp [] with rfl | more
    · simp [linePieces] at listed
    · rcases read : fgets (m - n - 1) fp with ⟨head, rest⟩
      have spec := fgets_spec (m - n - 1) fp
      rw [read] at spec
      dsimp only at spec
      rw [linePieces_round more read] at listed
      rcases spec with ⟨cut, whole⟩ | ⟨start, plain, rfl, whole⟩
      · have onward : head.getLast? ≠ some newline := fun last => cut (List.mem_of_getLast? last)
        rw [if_neg onward] at listed
        rw [← whole, List.takeWhile_append_of_pos (passed_of_plain cut), List.mem_append]
        rcases List.mem_cons.mp listed with rfl | later
        · exact .inl (.inl member)
        · exact (ih later).imp_left .inr
      · rw [List.getLast?_concat, if_pos rfl, List.mem_singleton] at listed
        rw [whole, List.takeWhile_append_of_pos (passed_of_plain plain), List.mem_append]
        rw [listed, List.mem_append, List.mem_singleton] at member
        exact member.imp_left .inl

/-- A line of text, which has no NUL byte, is read to its end. -/
theorem lineEndSeen_of_no_nul (io : Stdio) {fp : Bytes}
    (text : 0 ∉ fp.takeWhile (· ≠ newline)) : LineEndSeen io fp := by
  refine .inr fun piece last nul => ?_
  rcases mem_linePieces _ (List.mem_of_getLast? last) nul with inside | ends
  · exact text inside
  · exact absurd ends (by decide)

end Loop

end OmniaJit.Lua
