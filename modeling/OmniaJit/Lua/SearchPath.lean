import Mathlib.Data.List.TakeWhile
import OmniaJit.Lua.StringFormat

/-! # `package.searchpath`

The search of `lib_package.c` goes through the templates of a path in their order and takes the first
one whose file can be read. The path and the name are C strings here, which end at their first NUL.
-/

namespace OmniaJit.Lua

def nulChar : Char := .ofNat 0

/-- The part of a string that a C function sees of it. -/
def cText (s : Text) : Text := s.takeWhile (· ≠ nulChar)

/-- `luaL_gsub(L, s, p, r)`, for a `p` of one character. -/
def luaL_gsub (s : Text) (p : Char) (r : Text) : Text := s.flatMap fun c => if c = p then r else [c]

/-- The next template and what follows it. -/
def pushnexttemplate (path : Text) : Option (Text × Text) :=
  let path := path.dropWhile (· = ';')
  if path = [] then none else some (path.takeWhile (· ≠ ';'), path.dropWhile (· ≠ ';'))

theorem pushnexttemplate_some {path template rest : Text} (next : pushnexttemplate path = some (template, rest)) :
    path.dropWhile (· = ';') ≠ [] ∧ template = (path.dropWhile (· = ';')).takeWhile (· ≠ ';') ∧
      rest = (path.dropWhile (· = ';')).dropWhile (· ≠ ';') := by
  rw [pushnexttemplate] at next
  split_ifs at next with last
  cases next
  exact ⟨last, rfl, rfl⟩

theorem pushnexttemplate_length {path template rest : Text} (next : pushnexttemplate path = some (template, rest)) :
    rest.length < path.length := by
  obtain ⟨more, -, rfl⟩ := pushnexttemplate_some next
  have skipped : (path.dropWhile (· = ';')).length ≤ path.length := (List.dropWhile_suffix _).length_le
  have start := List.head_dropWhile_not (fun c => decide (c = ';')) more
  obtain ⟨c, path', behind⟩ := List.exists_cons_of_ne_nil more
  simp only [behind, List.head_cons, decide_eq_false_iff_not] at start
  have shorter : (path'.dropWhile (· ≠ ';')).length ≤ path'.length := (List.dropWhile_suffix _).length_le
  rw [behind, List.length_cons] at skipped
  rw [behind, List.dropWhile_cons_of_pos (by simpa using start)]
  omega

/-- The loop of `searchpath`: the file names that it tries. -/
def filenamesLoop (name path : Text) : List Text :=
  match _next : pushnexttemplate path with
  | none => []
  | some (template, rest) => luaL_gsub template '?' name :: filenamesLoop name rest
termination_by path.length
decreasing_by exact pushnexttemplate_length _next

/-- The file names that `searchpath` tries for a module, with its separator `.` and `LUA_DIRSEP`. -/
def filenames (name path : Text) : List Text := filenamesLoop (luaL_gsub (cText name) '.' ['/']) (cText path)

/-- `package.searchpath(name, path)`: the file, or the error message. -/
def searchpath (readable : Text → Bool) (name path : Text) : Except Text Text :=
  match (filenames name path).find? readable with
  | some filename => .ok filename
  | none => .error ((filenames name path).flatMap fun filename => "\n\tno file '".toList ++ filename ++ "'".toList)

theorem mem_luaL_gsub {s r : Text} {p c : Char} (member : c ∈ luaL_gsub s p r) : c ∈ r ∨ c ∈ s ∧ c ≠ p := by
  obtain ⟨c', inside, here⟩ := List.mem_flatMap.mp member
  split_ifs at here with mark
  · exact .inl here
  · obtain rfl := List.mem_singleton.mp here
    exact .inr ⟨inside, mark⟩

theorem luaL_gsub_plain {s r : Text} {p : Char} (plain : p ∉ s) : luaL_gsub s p r = s := by
  rw [luaL_gsub, List.flatMap_congr fun c member => if_neg (fun same : c = p => plain (same ▸ member)),
    List.flatMap_singleton']

theorem luaL_gsub_append (s s' : Text) (p : Char) (r : Text) :
    luaL_gsub (s ++ s') p r = luaL_gsub s p r ++ luaL_gsub s' p r := List.flatMap_append ..

/-- The first template of a path that does not start with a separator. -/
theorem filenames_head (name : Text) {template : Text} (rest : Text) (nonempty : template ≠ [])
    (plain : ∀ c ∈ template, c ≠ ';' ∧ c ≠ nulChar) :
    (filenames name (template ++ ';' :: rest)).head? =
      some (luaL_gsub template '?' (luaL_gsub (cText name) '.' ['/'])) := by
  have seen : cText (template ++ ';' :: rest) = template ++ ';' :: cText rest := by
    rw [cText, List.takeWhile_append_of_pos fun c member => decide_eq_true (plain c member).2,
      List.takeWhile_cons_of_pos (by decide), cText]
  have next : pushnexttemplate (template ++ ';' :: cText rest) = some (template, ';' :: cText rest) := by
    obtain ⟨c, template, rfl⟩ := List.exists_cons_of_ne_nil nonempty
    have start : (c :: template ++ ';' :: cText rest).dropWhile (· = ';') = c :: template ++ ';' :: cText rest :=
      List.dropWhile_cons_of_neg (by simpa using (plain c (List.mem_cons_self ..)).1)
    have inside : ∀ x ∈ c :: template, decide (x ≠ ';') = true := fun x member => decide_eq_true (plain x member).1
    rw [pushnexttemplate, start, if_neg (List.append_ne_nil_of_left_ne_nil nonempty _),
      List.takeWhile_append_of_pos inside, List.dropWhile_append_of_pos inside, List.takeWhile_cons_of_neg (by decide),
      List.dropWhile_cons_of_neg (by decide), List.append_nil]
  rw [filenames, seen, filenamesLoop, next]
  rfl

/-- The characters that have a meaning in a path, or end it. -/
def IsMark (c : Char) : Prop := c = ';' ∨ c = '?' ∨ c = nulChar

instance (c : Char) : Decidable (IsMark c) := inferInstanceAs (Decidable (_ ∨ _))

theorem filenamesLoop_plain {name path : Text} (unmarked : ∀ c ∈ name, ¬ IsMark c) (ended : nulChar ∉ path) :
    ∀ filename ∈ filenamesLoop name path, ∀ c ∈ filename, ¬ IsMark c := by
  induction path using filenamesLoop.induct with
  | case1 path last =>
    rw [filenamesLoop, last]
    simp
  | case2 path template rest next ih =>
    obtain ⟨-, first, behind⟩ := pushnexttemplate_some next
    have unended (c : Char) (inside : c ∈ path.dropWhile (· = ';')) : c ≠ nulChar :=
      fun same => ended (same ▸ (List.dropWhile_suffix _).subset inside)
    rw [filenamesLoop, next]
    intro filename tried c inside
    rcases List.mem_cons.mp tried with rfl | later
    · rcases mem_luaL_gsub inside with named | ⟨written, mark⟩
      · exact unmarked c named
      · rw [first] at written
        have separator : c ≠ ';' := by simpa using List.mem_takeWhile_imp written
        rintro (same | same | same)
        · exact separator same
        · exact mark same
        · exact unended c (List.takeWhile_subset _ written) same
    · refine ih (fun member => ?_) filename later c inside
      rw [behind] at member
      exact unended nulChar ((List.dropWhile_suffix _).subset member) rfl

/-- No file name has a separator, a NUL or, apart from the name of the module, a mark. -/
theorem filenames_plain {name path : Text} (unmarked : ∀ c ∈ name, ¬ IsMark c) :
    ∀ filename ∈ filenames name path, ∀ c ∈ filename, ¬ IsMark c := by
  apply filenamesLoop_plain
  · intro c member
    rcases mem_luaL_gsub member with separator | ⟨inside, -⟩
    · rw [List.mem_singleton.mp separator]
      decide
    · exact unmarked c (List.takeWhile_subset _ inside)
  · intro member
    simpa using List.mem_takeWhile_imp member

end OmniaJit.Lua
