import OmniaJit.Data.Separator
import OmniaJit.Lua.SearchPath
import OmniaJit.Lua.StringSub
import OmniaJit.Posix.PathName

/-! # The directory of a script

`bin/omnia.lua` and `bin/moon.lua` split the path of their script with `util.split` and put what comes
before the last slash in front of `package.path`. For a path without a slash that is the empty string,
which the templates turn into the root directory.
-/

namespace OmniaJit.Bin

open OmniaJit.Data OmniaJit.Lua OmniaJit.Posix

/-- The loop of `split`, from `l` down. -/
def splitLoop (path : Text) : ℕ → ℕ
  | 0 => 0
  | l + 1 => if sub path (l + 1) (l + 1) ≠ ['/'] then splitLoop path l else l + 1

/-- `split(path)` -/
def split (path : Text) : Text × Text :=
  let l := splitLoop path path.length
  if l = 0 then ([], path) else (sub path 1 (l - 1), sub path (l + 1) (-1))

section Split

theorem splitLoop_none {path : Text} (plain : '/' ∉ path) (l : ℕ) : splitLoop path l = 0 := by
  induction l with
  | zero => rfl
  | succ l ih =>
    rw [splitLoop, if_pos, ih]
    rw [sub_char]
    intro slash
    exact plain (List.mem_of_getElem? (Option.toList_eq_singleton_iff.mp slash))

/-- The loop stops at the last slash. -/
theorem splitLoop_some (front : Text) {back : Text} (plain : '/' ∉ back) {l : ℕ} (from_ : l ≤ back.length) :
    splitLoop (front ++ '/' :: back) (front.length + 1 + l) = front.length + 1 := by
  induction l with
  | zero =>
    have slash : sub (front ++ '/' :: back) (front.length + 1) (front.length + 1) = ['/'] := by
      rw [sub_char, List.getElem?_append_right le_rfl, Nat.sub_self]
      rfl
    rw [Nat.add_zero, splitLoop, if_neg (not_not.mpr slash)]
  | succ l ih =>
    rw [← Nat.add_assoc, splitLoop, if_pos, ih (by omega)]
    rw [sub_char, List.getElem?_append_right (by omega),
      show front.length + 1 + l - front.length = l + 1 by omega, List.getElem?_cons_succ]
    intro slash
    exact plain (List.mem_of_getElem? (Option.toList_eq_singleton_iff.mp slash))

theorem split_none {path : Text} (plain : '/' ∉ path) : split path = ([], path) := by
  rw [split, splitLoop_none plain]
  rfl

/-- What comes before the last slash, and what comes after it. -/
theorem split_some (front : Text) {back : Text} (plain : '/' ∉ back) :
    split (front ++ '/' :: back) = (front, back) := by
  have size : (front ++ '/' :: back).length = front.length + 1 + back.length := by
    rw [List.length_append, List.length_cons]
    omega
  have last : ((front.length + 1 : ℕ) : ℤ) - 1 = front.length := by omega
  rw [split, size, splitLoop_some front plain le_rfl]
  rw [if_neg (Nat.succ_ne_zero _), last, sub_take, sub_drop, List.take_left, List.append_cons, List.drop_left']
  rw [List.length_append, List.length_singleton]

/-- Every path is of one of the two kinds. -/
theorem slash_cases (path : Text) : '/' ∉ path ∨ ∃ front back, '/' ∉ back ∧ path = front ++ '/' :: back := by
  rcases found : lastSplit (· = '/') path with _ | ⟨front, back⟩
  · refine .inl fun member => ?_
    simpa using lastSplit_none found '/' member
  · obtain ⟨c, slash, whole, plain⟩ := lastSplit_some found
    obtain rfl := of_decide_eq_true slash
    exact .inr ⟨front, back, fun member => by simpa using plain '/' member, whole⟩

end Split

section PackagePath

variable {V : Type} (convert : SFormat → Value V → Except FormatError Text)

/-- `package.path` as both launchers set it for their script. -/
def packagePath (script : Text) : Except FormatError Text :=
  let spath := (split script).1
  format convert "%s/?.lua;%s/?/init.lua;./?.lua;./?/init.lua".toList [.string spath, .string spath]

theorem packagePath_eq (script : Text) :
    packagePath convert script = .ok ((split script).1 ++ "/?.lua".toList ++
      ';' :: ((split script).1 ++ "/?/init.lua;./?.lua;./?/init.lua".toList)) := by
  have read : pieces "%s/?.lua;%s/?/init.lua;./?.lua;./?/init.lua".toList =
      [.directive {}, .lit "/?.lua;".toList, .directive {}, .lit "/?/init.lua;./?.lua;./?/init.lua".toList] := by
    decide +kernel
  have whole (s : Text) : putfstr {} s = s := by simp [putfstr]
  rw [packagePath, format, read]
  simp only [formatLoop, putArg, whole, if_true]
  exact congrArg Except.ok (by simp)

/-- The file of a module: its name with slashes for the dots. -/
def moduleFile (name : Text) : Text := luaL_gsub (cText name) '.' ['/'] ++ ".lua".toList

/-- The two parts that `split` returns are a directory and a name in it, and the file that is tried first for
a module is the one in the directory of the script. -/
structure OwnDirectoryFirst (script : Text) : Prop where
  plain : '/' ∉ (split script).2
  sameFile : resolve ((split script).1 ++ '/' :: (split script).2) = resolve script
  first : ∃ path, packagePath convert script = .ok path ∧ ∀ name, ∃ filename,
    (filenames name path).head? = some filename ∧
      resolve filename = (resolve script).parent.enter (moduleFile name)

/-- The part behind the last slash has no slash. -/
theorem split_plain (script : Text) : '/' ∉ (split script).2 := by
  rcases slash_cases script with plain | ⟨front, back, plain, rfl⟩
  · rwa [split_none plain]
  · rwa [split_some front plain]

/-- Without a slash the parts are those of a file in the root directory. -/
theorem split_sameFile_iff (script : Text) :
    resolve ((split script).1 ++ '/' :: (split script).2) = resolve script ↔ '/' ∈ script := by
  rcases slash_cases script with plain | ⟨front, back, plain, rfl⟩
  · rw [split_none plain]
    refine iff_of_false (fun same => ?_) plain
    have start := congrArg Resolution.absolute same
    have root : script.head? = some '/' := by simpa [resolve] using start
    exact plain (List.mem_of_head? root)
  · rw [split_some front plain]
    exact iff_of_true rfl (by simp)

variable {front back : Text}

/-- The first template works if nothing in it is read as the end of a template or as a mark. -/
theorem filenames_own (plain : '/' ∉ back) (unmarked : ∀ c ∈ front, ¬ IsMark c) (name rest : Text) :
    (filenames name (front ++ "/?.lua".toList ++ ';' :: rest)).head? = some (front ++ '/' :: moduleFile name) ∧
      resolve (front ++ '/' :: moduleFile name) =
        (resolve (front ++ '/' :: back)).parent.enter (moduleFile name) := by
  constructor
  · have closed : ∀ c ∈ front ++ "/?.lua".toList, c ≠ ';' ∧ c ≠ nulChar := by
      intro c member
      rcases List.mem_append.mp member with inside | inside
      · exact ⟨fun same => unmarked c inside (.inl same), fun same => unmarked c inside (.inr (.inr same))⟩
      · have clear : "/?.lua".toList.all (fun c => c != ';' && c != nulChar) = true := by decide +kernel
        simpa using List.all_eq_true.mp clear c inside
    have markless : '?' ∉ front := fun member => unmarked '?' member (.inr (.inl rfl))
    have mark (r : Text) : luaL_gsub "/?.lua".toList '?' r = '/' :: (r ++ ".lua".toList) := by simp [luaL_gsub]
    rw [filenames_head name rest (by simp) closed, luaL_gsub_append, luaL_gsub_plain markless, mark]
    rfl
  · apply resolve_enter front _ plain
    simp [moduleFile]

/-- A mark in the directory of the script is not in the file that is tried first. -/
theorem unmarked_of_own {path : Text} (plain : '/' ∉ back)
    (first : ∃ filename, (filenames [] path).head? = some filename ∧
      resolve filename = (resolve (front ++ '/' :: back)).parent.enter (moduleFile [])) :
    ∀ c ∈ front, ¬ IsMark c := by
  intro c member mark
  obtain ⟨filename, tried, same⟩ := first
  have unmarked := filenames_plain (by simp) filename (List.mem_of_head? tried)
  rw [parent_slash front plain] at same
  have inside : names (completed filename) = names front ++ names (completed (moduleFile [])) :=
    congrArg Resolution.components same
  have other : c ≠ '/' := by
    rintro rfl
    exact absurd mark (by decide)
  have found : ∃ name ∈ names (completed filename), c ∈ name := by
    obtain ⟨name, here, last⟩ := (mem_names_iff other).mpr member
    exact ⟨name, inside ▸ List.mem_append_left _ here, last⟩
  rcases mem_completed ((mem_names_iff other).mp found) with written | rfl
  · exact unmarked c written mark
  · exact absurd mark (by decide)

/-- The script's own directory is searched first exactly if the path has a slash and none of the characters
that have a meaning in `package.path` comes before the last one. The part behind the slash has none in any
case, and the two parts name the script exactly if its path has one. -/
theorem ownDirectoryFirst_iff (script : Text) :
    (OwnDirectoryFirst convert script ↔
      ∃ front back, script = front ++ '/' :: back ∧ '/' ∉ back ∧ ∀ c ∈ front, ¬ IsMark c) ∧
    '/' ∉ (split script).2 ∧
    (resolve ((split script).1 ++ '/' :: (split script).2) = resolve script ↔ '/' ∈ script) := by
  refine ⟨⟨?needed, ?enough⟩, split_plain script, split_sameFile_iff script⟩
  case needed =>
    rintro ⟨-, sameFile, path, -, first⟩
    rcases slash_cases script with none | ⟨front, back, plain, rfl⟩
    · exact absurd ((split_sameFile_iff script).mp sameFile) none
    · exact ⟨front, back, rfl, plain, unmarked_of_own plain (first [])⟩
  case enough =>
    rintro ⟨front, back, rfl, plain, unmarked⟩
    refine ⟨split_plain _, (split_sameFile_iff _).mpr (by simp), _, packagePath_eq convert _, fun name => ?_⟩
    rw [split_some front plain]
    exact ⟨_, filenames_own plain unmarked name _⟩

/-- Then a module whose file in the directory of the script can be read is found there, whatever else there is. -/
theorem searchpath_own {script : Text} (own : OwnDirectoryFirst convert script) (readable : Text → Bool) :
    ∃ path, packagePath convert script = .ok path ∧ ∀ name, ∃ filename,
      resolve filename = (resolve script).parent.enter (moduleFile name) ∧
        (readable filename → searchpath readable name path = .ok filename) := by
  obtain ⟨path, made, first⟩ := own.first
  refine ⟨path, made, fun name => ?_⟩
  obtain ⟨filename, tried, same⟩ := first name
  refine ⟨filename, same, fun found => ?_⟩
  obtain ⟨rest, all⟩ := List.head?_eq_some_iff.mp tried
  rw [searchpath, all, List.find?_cons_of_pos found]

end PackagePath

/-- A bare file name: its directory is taken for the root directory. -/
theorem bare_name_from_root :
    ¬ OwnDirectoryFirst (fun _ (_ : Value Empty) => .error (.argument 0)) "main.lua".toList := by
  intro own
  have slash := (split_sameFile_iff _).mp own.sameFile
  exact absurd slash (by decide)

end OmniaJit.Bin
