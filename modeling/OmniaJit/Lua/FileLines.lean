import OmniaJit.Lua.FileRead

/-! # The lines of a file

`io.lines` with a format. A line can be read with its end; the loop is the one of `"*line"`, and the
text it returns is the first line of the file as long as that line has no NUL byte.
-/

namespace OmniaJit.Lua

/-- The text up to the first line end, with that line end. -/
def firstLine (fp : Bytes) : Bytes := fp.takeWhile (· ≠ newline) ++ if newline ∈ fp then [newline] else []

/-- The lines of a file, each with its line end, which the last one may lack. -/
def lines : Bytes → List Bytes
  | [] => []
  | c :: fp =>
    if c = newline then [c] :: lines fp
    else match lines fp with
      | [] => [[c]]
      | line :: rest => (c :: line) :: rest

/-- `io_file_readline` for `"*L"`. -/
def readLineEndLoop : ℕ → ℕ → Bytes → Bool → Bytes → Option Bytes × Bytes
  | 0, _, _, _, fp => (none, fp)
  | fuel + 1, m, buf, ok, fp =>
      if fp = [] then (if ok then some buf else none, [])
      else
        let (piece, fp) := fgets (m - buf.length - 1) fp
        let buf := buf ++ seen piece
        let ok := ok || buf ≠ []
        if buf.getLast? = some newline then (if ok then some buf else none, fp)
        else readLineEndLoop fuel (grow m buf.length) buf ok fp

/-- `f:read("*L")`. -/
def readLineEnd (io : Stdio) (fp : Bytes) : Option Bytes × Bytes :=
  readLineEndLoop (fp.length + 1) io.bufferSize [] false fp

/-- The formats whose result is a string. -/
inductive Format where
  | line (chop : Bool)
  | all
  | len (m : ℕ)

/-- What one format reads, and what it leaves. -/
def Format.read (io : Stdio) : Format → Bytes → Option Bytes × Bytes
  | .line true, fp => readLine io fp
  | .line false, fp => readLineEnd io fp
  | .all, fp => (some fp, [])
  | .len m, fp => if m = 0 then (if fp = [] then none else some [], fp) else readLen m fp

theorem firstLine_of_end {start : Bytes} (plain : newline ∉ start) (rest : Bytes) :
    firstLine (start ++ newline :: rest) = start ++ [newline] := by
  rw [firstLine, List.takeWhile_append_of_pos (passed_of_plain plain), List.takeWhile_cons_of_neg (by simp),
    List.append_nil, if_pos (by simp)]

theorem firstLine_of_cut {start : Bytes} (plain : newline ∉ start) (rest : Bytes) :
    firstLine (start ++ rest) = start ++ firstLine rest := by
  have same : newline ∈ start ++ rest ↔ newline ∈ rest := by simp [plain]
  simp only [firstLine, List.takeWhile_append_of_pos (passed_of_plain plain), same, List.append_assoc]

theorem lines_eq {fp : Bytes} (more : fp ≠ []) : lines fp = firstLine fp :: lines (afterLine fp) := by
  induction fp with
  | nil => exact absurd rfl more
  | cons c fp ih =>
    rw [lines]
    split_ifs with ends
    · obtain rfl := ends
      rw [← List.nil_append (newline :: fp), firstLine_of_end List.not_mem_nil, afterLine_of_end List.not_mem_nil]
      rfl
    · have plain : newline ∉ [c] := by
        rw [List.mem_singleton]
        exact fun same => ends same.symm
      have cut : firstLine (c :: fp) = c :: firstLine fp := firstLine_of_cut plain fp
      rw [cut, afterLine_cons ends]
      rcases eq_or_ne fp [] with rfl | more
      · rfl
      · rw [ih more]

theorem head?_lines {fp : Bytes} (more : fp ≠ []) : (lines fp).head? = some (firstLine fp) := by
  rw [lines_eq more]
  rfl

/-- One round of the line reader. -/
theorem readLineEndLoop_round {fuel m : ℕ} {buf fp piece rest : Bytes} {ok : Bool} (more : fp ≠ [])
    (read : fgets (m - buf.length - 1) fp = (piece, rest)) :
    readLineEndLoop (fuel + 1) m buf ok fp =
      if (buf ++ seen piece).getLast? = some newline then
        (if ok || (buf ++ seen piece) ≠ [] then some (buf ++ seen piece) else none, rest)
      else readLineEndLoop fuel (grow m (buf ++ seen piece).length) (buf ++ seen piece)
        (ok || (buf ++ seen piece) ≠ []) rest := by
  simp only [readLineEndLoop, if_neg more, read]

/-- The loop, from any state of it. -/
theorem readLineEndLoop_text (fuel : ℕ) {m : ℕ} {buf fp : Bytes} {ok : Bool} (enough : fp.length < fuel)
    (room : buf.length + 64 < m) (unended : newline ∉ buf.getLast?) (started : ok = decide (buf ≠ []))
    (text : 0 ∉ firstLine fp) :
    (readLineEndLoop fuel m buf ok fp).1 =
      if buf ++ firstLine fp = [] then none else some (buf ++ firstLine fp) := by
  induction fuel generalizing m buf fp ok with
  | zero => omega
  | succ fuel ih =>
    rcases eq_or_ne fp [] with rfl | more
    · have empty : firstLine [] = [] := rfl
      rw [readLineEndLoop, if_pos rfl, empty, List.append_nil, started]
      rcases eq_or_ne buf [] with rfl | nonempty
      · rfl
      · simp [nonempty]
    · rcases read : fgets (m - buf.length - 1) fp with ⟨piece, rest⟩
      have progress : (fgets (m - buf.length - 1) fp).2.length < fp.length :=
        fgets_progress (by omega) more
      have short := fgets_length (m - buf.length - 1) fp
      have spec := fgets_spec (m - buf.length - 1) fp
      rw [read] at progress short spec
      dsimp only at progress short spec
      rw [readLineEndLoop_round more read]
      rcases spec with ⟨cut, whole⟩ | ⟨start, plain, rfl, whole⟩
      · have first : firstLine fp = piece ++ firstLine rest := by rw [← whole, firstLine_of_cut cut]
        rw [first, List.mem_append, not_or] at text
        have all := seen_of_no_nul text.1
        have nonempty : piece ≠ [] := by
          rintro rfl
          rw [← whole] at progress
          exact absurd progress (lt_irrefl _)
        have hidden : newline ∉ seen piece := by rwa [all]
        have onward := not_ended unended hidden
        rw [if_neg onward, ih (by omega) (grow_room room short) onward ?_ text.2, all, first, List.append_assoc]
        simp [started, all, nonempty]
      · have first : firstLine fp = start ++ [newline] := by rw [whole, firstLine_of_end plain]
        rw [first] at text
        rw [seen_of_no_nul text, ← List.append_assoc, List.getLast?_concat, if_pos rfl, first]
        simp

theorem firstLine_ne_nil {fp : Bytes} (more : fp ≠ []) : firstLine fp ≠ [] := by
  obtain ⟨c, fp, rfl⟩ := List.exists_cons_of_ne_nil more
  rcases eq_or_ne c newline with rfl | other <;> simp [firstLine, *]

/-- A first line without a NUL byte is read as it is. -/
theorem readLineEnd_text (io : Stdio) {fp : Bytes} (more : fp ≠ []) (text : 0 ∉ firstLine fp) :
    (readLineEnd io fp).1 = some (firstLine fp) := by
  have read := @readLineEndLoop_text (fp.length + 1) io.bufferSize [] fp false (Nat.lt_succ_self _)
    (by simpa using io.bufferSize_large) (by simp) rfl text
  rwa [List.nil_append, if_neg (firstLine_ne_nil more)] at read

/-- `"*l"` and `"*L"` are one loop that takes the line end off or leaves it. -/
theorem readLineLoop_eq (fuel m : ℕ) (buf : Bytes) (ok : Bool) (fp : Bytes) (unended : newline ∉ buf.getLast?) :
    readLineLoop fuel m buf ok fp =
      ((readLineEndLoop fuel m buf ok fp).1.map fun line =>
          if line.getLast? = some newline then line.dropLast else line,
        (readLineEndLoop fuel m buf ok fp).2) := by
  induction fuel generalizing m buf ok fp with
  | zero => rfl
  | succ fuel ih =>
    rw [readLineLoop, readLineEndLoop]
    split_ifs with done started
    · rw [Option.map_some, if_neg (show buf.getLast? ≠ some newline from unended)]
    · rfl
    · dsimp only
      split_ifs with ended nonempty
      · rw [Option.map_some, if_pos ended]
      · rfl
      · exact ih _ _ _ _ ended

/-- A line without its end. -/
def chopped (line : Bytes) : Bytes := if line.getLast? = some newline then line.dropLast else line

/-- The lines of a file without their ends. -/
def lineTexts (fp : Bytes) : List Bytes := (lines fp).map chopped

/-- What `io.lines(file)` returns until it ends. -/
def ioLines (io : Stdio) (fp : Bytes) : List Bytes :=
  if _more : fp = [] then []
  else
    match (readLine io fp).1 with
    | none => []
    | some line => line :: ioLines io (readLine io fp).2
termination_by fp.length
decreasing_by exact (readLine_length io fp).2 _more

theorem mem_of_mem_firstLine {fp : Bytes} {c : UInt8} (member : c ∈ firstLine fp) : c ∈ fp := by
  rcases List.mem_append.mp member with inside | ended
  · exact List.takeWhile_subset _ inside
  · split_ifs at ended with present
    · rwa [List.mem_singleton.mp ended]
    · cases ended

theorem mem_of_mem_afterLine {fp : Bytes} {c : UInt8} (member : c ∈ afterLine fp) : c ∈ fp :=
  (List.dropWhile_suffix _).subset (List.mem_of_mem_tail member)

/-- A first line without a NUL byte is read without its end, and what follows it is left. -/
theorem readLine_text (io : Stdio) {fp : Bytes} (more : fp ≠ []) (text : 0 ∉ firstLine fp) :
    readLine io fp = (some (chopped (firstLine fp)), afterLine fp) := by
  have left : (readLine io fp).2 = afterLine fp := by
    rw [readLine_rest]
    exact lineEndSeen_of_no_nul io fun member => text (List.mem_append_left _ member)
  have line : (readLine io fp).1 = (readLineEnd io fp).1.map chopped := by
    rw [readLine, readLineLoop_eq _ _ _ _ _ (by simp)]
    rfl
  rw [readLineEnd_text io more text, Option.map_some] at line
  exact Prod.ext line left

/-- A file without NUL bytes is read line by line. -/
theorem ioLines_text (io : Stdio) {fp : Bytes} (text : 0 ∉ fp) : ioLines io fp = lineTexts fp := by
  have first (fp : Bytes) (text : 0 ∉ fp) : 0 ∉ firstLine fp := fun member => text (mem_of_mem_firstLine member)
  induction fp using ioLines.induct io with
  | case1 =>
    rw [ioLines]
    rfl
  | case2 fp more none =>
    rw [readLine_text io more (first fp text)] at none
    cases none
  | case3 fp more line read ih =>
    have line := readLine_text io more (first fp text)
    rw [line] at ih
    rw [ioLines, dif_neg more, line, lineTexts, lines_eq more, List.map_cons]
    exact congrArg _ (ih fun member => text (mem_of_mem_afterLine member))

end OmniaJit.Lua
