import Mathlib.Data.List.Basic

/-! # Path names

What the resolution of a path name goes by: whether it starts at the root, and the names between its
slashes. Repeated slashes count as one, and a path that ends with a slash is resolved as if a dot
followed.
-/

namespace OmniaJit.Posix

/-- The names between the slashes of a path. -/
def names (path : List Char) : List (List Char) := (path.splitOn '/').filter (· ≠ [])

/-- A path with the dot behind its last slash. -/
def completed (path : List Char) : List Char := if path.getLast? = some '/' then path ++ ['.'] else path

structure Resolution where
  absolute : Bool
  components : List (List Char)
deriving DecidableEq

def resolve (path : List Char) : Resolution := ⟨path.head? = some '/', names (completed path)⟩

namespace Resolution

/-- The directory in which the last component is looked up. -/
def parent (r : Resolution) : Resolution := { r with components := r.components.dropLast }

/-- A relative path from the directory `r`. -/
def enter (r : Resolution) (path : List Char) : Resolution :=
  { r with components := r.components ++ names (completed path) }

end Resolution

theorem names_append (front back : List Char) : names (front ++ '/' :: back) = names front ++ names back := by
  rw [names, List.splitOn_append_cons_self, List.filter_append, names, names]

theorem names_single {name : List Char} (plain : '/' ∉ name) (nonempty : name ≠ []) : names name = [name] := by
  rw [names, List.splitOn_eq_singleton plain, List.filter_singleton, decide_eq_true nonempty, cond_true]

/-- Only the slashes are left out. -/
theorem flatten_names (path : List Char) : (names path).flatten = path.filter (· ≠ '/') := by
  rw [names, List.flatten_filter_ne_nil]
  induction path with
  | nil => rfl
  | cons c path ih =>
    rw [List.splitOn_cons_eq_if_modifyHead, List.filter_cons, ← ih]
    obtain ⟨first, rest, split⟩ := List.exists_cons_of_ne_nil (List.splitOn_ne_nil '/' path)
    rcases eq_or_ne c '/' with rfl | other
    · rfl
    · simp [other, split]

theorem mem_names_iff {path : List Char} {c : Char} (other : c ≠ '/') : (∃ name ∈ names path, c ∈ name) ↔ c ∈ path := by
  rw [← List.mem_flatten, flatten_names, List.mem_filter]
  exact and_iff_left (decide_eq_true other)

theorem completed_append (front : List Char) {back : List Char} (more : back ≠ []) :
    completed (front ++ back) = front ++ completed back := by
  rw [completed, completed, List.getLast?_append_of_ne_nil _ more]
  split_ifs
  · exact List.append_assoc ..
  · rfl

theorem completed_plain {name : List Char} (plain : '/' ∉ name) : completed name = name := by
  rw [completed, if_neg]
  intro last
  exact plain (List.mem_of_getLast? last)

theorem mem_completed {path : List Char} {c : Char} (member : c ∈ completed path) : c ∈ path ∨ c = '.' := by
  rw [completed] at member
  split_ifs at member
  · simpa using member
  · exact .inl member

section Slash

variable (front : List Char) {back : List Char}

/-- The path `front/back` starts at the root, whatever `back` is. -/
def startsAtRoot : Bool := front.head?.all (· = '/')

theorem resolve_slash (more : back ≠ []) :
    resolve (front ++ '/' :: back) = ⟨startsAtRoot front, names front ++ names (completed back)⟩ := by
  have start : decide ((front ++ '/' :: back).head? = some '/') = startsAtRoot front := by
    cases front <;> simp [startsAtRoot]
  rw [resolve, start, List.append_cons, completed_append _ more, ← List.append_cons, names_append]

/-- The directory of a path is what stands before its last slash. -/
theorem parent_slash (plain : '/' ∉ back) :
    (resolve (front ++ '/' :: back)).parent = ⟨startsAtRoot front, names front⟩ := by
  rcases eq_or_ne back [] with rfl | more
  · have path : completed (front ++ ['/']) = completed (front ++ '/' :: ['.']) := by simp [completed]
    have start : (front ++ ['/']).head? = (front ++ '/' :: ['.']).head? := by cases front <;> rfl
    have dotted : resolve (front ++ ['/']) = resolve (front ++ '/' :: ['.']) := by
      rw [resolve, resolve, path, start]
    rw [dotted, resolve_slash front (List.cons_ne_nil '.' []), Resolution.parent]
    exact congrArg _ (List.dropLast_concat ..)
  · rw [resolve_slash front more, completed_plain plain, names_single plain more, Resolution.parent,
      List.dropLast_concat]

/-- A relative path behind the last slash, instead of what is there. -/
theorem resolve_enter {rel : List Char} (more : rel ≠ []) (plain : '/' ∉ back) :
    resolve (front ++ '/' :: rel) = (resolve (front ++ '/' :: back)).parent.enter rel := by
  rw [resolve_slash front more, parent_slash front plain]
  rfl

end Slash

end OmniaJit.Posix
