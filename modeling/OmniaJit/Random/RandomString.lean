import OmniaJit.FfiExt
import OmniaJit.Lua.FileRead
import OmniaJit.Lua.StringFormat
import OmniaJit.Random.Prng

/-! # `ffi_ext.random_string`

Each level of the recursion reads four bytes and sets the generator, and draws its character after the
inner levels have returned. They have set the generator again by then.
-/

namespace OmniaJit.Random

open OmniaJit.Data OmniaJit.Lua OmniaJit.Machine
open OmniaJit.Exec (Errno)
open OmniaJit.FfiExt (Transient)

/-- The characters from the three loops. -/
def charset : Text := (List.range' 48 10 ++ List.range' 65 26 ++ List.range' 97 26).map Char.ofNat

/-- Why a call does not return. -/
inductive Stop where
  /-- There is no further result of `C.getrandom`. -/
  | blocked
  /-- bad argument #1 to 'byte' (string expected, got nil) -/
  | argument
  /-- attempt to perform arithmetic on a nil value -/
  | arithmetic
deriving DecidableEq

/-- The results that `C.getrandom` is going to have, and the generator of the library. -/
structure Process (g : Generator charset.length) where
  reads : List (Except Errno Bytes)
  generator : g.State

variable {g : Generator charset.length}

/-- `ffiext.retry(C.getrandom)` -/
def retry : List (Except Errno Bytes) → Program Stop (Process g) (Except Errno Bytes)
  | [] => throw .blocked
  | r :: reads => do
    modify fun p => { p with reads := reads }
    match r with
    | .ok bytes => pure (.ok bytes)
    | .error e => if Transient e then retry reads else pure (.error e)

/-- `ffiext.getrandom(s)`, without the text of the error. -/
def getrandom (s : Option ℕ) : Program Stop (Process g) (Option Bytes) := do
  let r ← retry (← get).reads
  match r with
  | .ok bytes => pure (if bytes.length = s.getD 512 then some bytes else none)
  | .error _ => pure none

/-- `string.byte(r, i)`, as an operand. -/
def byte (r : Option Bytes) (i : ℕ) : Program Stop (Process g) ℕ :=
  match r with
  | none => throw .argument
  | some bytes =>
    match bytes[i - 1]? with
    | none => throw .arithmetic
    | some b => pure b.toNat

/-- The seed of a level. -/
def readSeed : Program Stop (Process g) ℕ := do
  let r ← getrandom (some 4)
  let a ← byte r 1
  let b ← byte r 2
  let c ← byte r 3
  let d ← byte r 4
  return a * 0x1000000 + b * 0x10000 + c * 0x100 + d

/-- `charset[math.random(1, #charset)]` -/
def randomChar : Program Stop (Process g) Char := do
  let p ← get
  let (k, s) := g.random p.generator
  modify fun p => { p with generator := s }
  return charset.get k

def random_string (length : Option ℤ) : Program Stop (Process g) Text := do
  let seed ← readSeed
  match length with
  | none => return []
  | some n =>
    if n ≤ 0 then return []
    else
      modify fun p => { p with generator := g.randomseed seed }
      let s ← random_string (some (n - 1))
      let c ← randomChar
      return s ++ [c]
termination_by (length.getD 0).toNat
decreasing_by
  simp only [Option.getD_some]
  omega

/-- The bytes of a seed. -/
def word (seed : ℕ) : Bytes :=
  [UInt8.ofNat (seed / 0x1000000), UInt8.ofNat (seed / 0x10000), UInt8.ofNat (seed / 0x100), UInt8.ofNat seed]

section Reads

variable {p : Process g}

theorem ensures_retry (reads : List (Except Errno Bytes)) : Program.Ensures (retry reads) p
    (fun _ q => q.generator = p.generator) (fun _ _ => True) := by
  induction reads generalizing p with
  | nil => trivial
  | cons r reads ih =>
    simp only [retry, Program.ensures_bind, Program.ensures_modify]
    cases r with
    | ok bytes => exact rfl
    | error e => exact (Program.ensures_ite ..).mpr ⟨fun _ => ih, fun _ => rfl⟩

theorem ensures_getrandom (s : Option ℕ) : Program.Ensures (getrandom s) p
    (fun _ q => q.generator = p.generator) (fun _ _ => True) := by
  simp only [getrandom, Program.ensures_bind, Program.ensures_get]
  apply (ensures_retry p.reads).mono
  · rintro (_ | _) q kept
    · exact kept
    · exact kept
  · exact fun _ _ _ => trivial

theorem ensures_byte (r : Option Bytes) (i : ℕ) : Program.Ensures (byte r i) p
    (fun b q => b < 256 ∧ q = p) (fun _ _ => True) := by
  cases r with
  | none => trivial
  | some bytes =>
    rw [byte]
    split
    · trivial
    · exact ⟨UInt8.toNat_lt _, rfl⟩

/-- A seed has 32 bits, and reading it leaves the generator as it is. -/
theorem ensures_readSeed : Program.Ensures readSeed p
    (fun seed q => seed < 2 ^ 32 ∧ q.generator = p.generator) (fun _ _ => True) := by
  have stop (e : Stop) (q : Process g) (_ : True) : True := trivial
  simp only [readSeed, Program.ensures_bind, Program.ensures_pure]
  refine (ensures_getrandom _).mono ?_ stop
  intro r q kept
  refine (ensures_byte r 1).mono ?_ stop
  rintro a _ ⟨_, rfl⟩
  refine (ensures_byte r 2).mono ?_ stop
  rintro b _ ⟨_, rfl⟩
  refine (ensures_byte r 3).mono ?_ stop
  rintro c _ ⟨_, rfl⟩
  refine (ensures_byte r 4).mono ?_ stop
  rintro d _ ⟨_, rfl⟩
  exact ⟨by omega, kept⟩

theorem ensures_readSeed_word {seed : ℕ} (small : seed < 2 ^ 32) {reads : List (Except Errno Bytes)}
    (first : p.reads = .ok (word seed) :: reads) :
    Program.Ensures readSeed p (fun seed' q => seed' = seed ∧ q = ⟨reads, p.generator⟩) (fun _ _ => False) := by
  simp [readSeed, getrandom, first, retry, byte, word]
  omega

end Reads

section Levels

theorem random_string_zero : (random_string (some (0 : ℕ)) : Program Stop (Process g) Text) = do
    let _ ← readSeed
    return [] := by
  rw [random_string]
  rfl

theorem random_string_succ (m : ℕ) : (random_string (some (m + 1 : ℕ)) : Program Stop (Process g) Text) = do
    let seed ← readSeed
    modify fun p => { p with generator := g.randomseed seed }
    let s ← random_string (some m)
    let c ← randomChar
    return s ++ [c] := by
  have positive : ¬ ((m + 1 : ℕ) : ℤ) ≤ 0 := by omega
  have inner : ((m + 1 : ℕ) : ℤ) - 1 = m := by omega
  rw [random_string]
  simp only [positive, if_false, inner]

theorem ensures_randomChar {p : Process g} {m : ℕ} {s : g.State} (state : p.generator = g.after m s) :
    Program.Ensures (do let c ← randomChar; return (g.draws m s).map charset.get ++ [c]) p
      (fun w q => w = (g.draws (m + 1) s).map charset.get ∧ q = ⟨p.reads, g.after (m + 1) s⟩) (fun _ _ => False) := by
  rw [Generator.draws, Generator.after, List.map_append, ← state]
  exact ⟨rfl, rfl⟩

/-- Each level sets the generator, and the characters are drawn from the state that the innermost one
leaves. -/
theorem ensures_random_string (m : ℕ) (p : Process g) : Program.Ensures (random_string (some m)) p
    (fun w q => ∃ seeds : List ℕ, seeds.length = m ∧ (∀ seed ∈ seeds, seed < 2 ^ 32) ∧
      w = (g.draws m (g.reseed p.generator seeds)).map charset.get ∧
      q.generator = g.after m (g.reseed p.generator seeds)) (fun _ _ => True) := by
  induction m generalizing p with
  | zero =>
    rw [random_string_zero, Program.ensures_bind]
    refine ensures_readSeed.mono ?_ fun _ _ _ => trivial
    rintro seed q ⟨_, kept⟩
    exact ⟨[], rfl, List.forall_mem_nil _, rfl, kept⟩
  | succ m ih =>
    rw [random_string_succ, Program.ensures_bind]
    refine ensures_readSeed.mono ?_ fun _ _ _ => trivial
    rintro seed q ⟨small, _⟩
    simp only [Program.ensures_bind, Program.ensures_modify]
    refine (ih _).mono ?_ fun _ _ _ => trivial
    rintro _ q ⟨seeds, count, smalls, rfl, state⟩
    have drawn := ensures_randomChar state
    rw [Program.ensures_bind] at drawn
    refine drawn.mono ?_ fun _ _ _ => trivial
    rintro c _ ⟨rest, rfl⟩
    exact ⟨seed :: seeds, congrArg (· + 1) count, List.forall_mem_cons.mpr ⟨small, smalls⟩, rest, rfl⟩

/-- The run for given seeds, of which the last one sets nothing. -/
theorem ensures_random_string_words {m : ℕ} {p : Process g} {seeds : List ℕ} (count : seeds.length = m) {last : ℕ}
    (small : ∀ seed ∈ seeds ++ [last], seed < 2 ^ 32)
    (reads : p.reads = (seeds ++ [last]).map fun seed => .ok (word seed)) :
    Program.Ensures (random_string (some m)) p
      (fun w q => w = (g.draws m (g.reseed p.generator seeds)).map charset.get ∧
        q = ⟨[], g.after m (g.reseed p.generator seeds)⟩) (fun _ _ => False) := by
  induction m generalizing p seeds with
  | zero =>
    obtain rfl := List.length_eq_zero_iff.mp count
    rw [random_string_zero, Program.ensures_bind]
    refine (ensures_readSeed_word (small last (by simp)) reads).mono ?_ fun _ _ => id
    rintro _ _ ⟨rfl, rfl⟩
    exact ⟨rfl, rfl⟩
  | succ m ih =>
    obtain ⟨seed, seeds, rfl⟩ := List.exists_cons_of_length_eq_add_one count
    rw [random_string_succ, Program.ensures_bind]
    refine (ensures_readSeed_word (small seed (by simp)) reads).mono ?_ fun _ _ => id
    rintro read _ ⟨rfl, rfl⟩
    simp only [Program.ensures_bind, Program.ensures_modify]
    refine (ih (Nat.succ_inj.mp count) (fun seed member => small seed (List.mem_cons_of_mem _ member)) rfl).mono ?_
      fun _ _ => id
    rintro _ _ ⟨rfl, rfl⟩
    have drawn := ensures_randomChar (p := ⟨[], _⟩) (m := m) (s := g.reseed (g.randomseed read) seeds) rfl
    rw [Program.ensures_bind] at drawn
    exact drawn

end Levels

section Strings

theorem charset_nodup : charset.Nodup := by decide +kernel

/-- `[0-9a-zA-Z]` -/
def Alphanumeric (c : Char) : Prop :=
  ('0'.toNat ≤ c.toNat ∧ c.toNat ≤ '9'.toNat) ∨ ('a'.toNat ≤ c.toNat ∧ c.toNat ≤ 'z'.toNat) ∨
    ('A'.toNat ≤ c.toNat ∧ c.toNat ≤ 'Z'.toNat)

instance (c : Char) : Decidable (Alphanumeric c) := inferInstanceAs (Decidable (_ ∨ _))

theorem mem_charset_iff (c : Char) : c ∈ charset ↔ Alphanumeric c := by
  constructor
  · have all : (charset.all fun c => Alphanumeric c) = true := by decide +kernel
    exact fun member => of_decide_eq_true (List.all_eq_true.mp all c member)
  · intro alphanumeric
    refine List.mem_map.mpr ⟨c.toNat, ?_, Char.ofNat_toNat c⟩
    simp only [List.mem_append, List.mem_range'_1]
    rcases alphanumeric with ⟨low, high⟩ | ⟨low, high⟩ | ⟨low, high⟩
    · exact Or.inl (Or.inl ⟨low, Nat.lt_succ_of_le high⟩)
    · exact Or.inr ⟨low, Nat.lt_succ_of_le high⟩
    · exact Or.inl (Or.inr ⟨low, Nat.lt_succ_of_le high⟩)

/-- `random_string(n)` returns `w` from `p` with some results of `C.getrandom`. -/
def Produces (p : Process g) (n : ℕ) (w : Text) : Prop :=
  ∃ reads q, random_string (some n) { p with reads := reads } = .ok w q

theorem produces_iff (p : Process g) {n : ℕ} (positive : 0 < n) (w : Text) :
    Produces p n w ↔ ∃ seed < 2 ^ 32, (g.draws n (g.randomseed seed)).map charset.get = w := by
  constructor
  · rintro ⟨reads, q, returned⟩
    obtain ⟨seeds, count, small, drawn, -⟩ :=
      (Program.ensures_of_ok returned).mp (ensures_random_string n { p with reads := reads })
    have nonempty : seeds ≠ [] := List.ne_nil_of_length_pos (count ▸ positive)
    obtain ⟨others, seed, rfl⟩ := (List.eq_nil_or_concat' seeds).resolve_left nonempty
    rw [Generator.reseed_concat] at drawn
    exact ⟨seed, small seed (by simp), drawn.symm⟩
  · rintro ⟨seed, small, rfl⟩
    obtain ⟨m, rfl⟩ := Nat.exists_eq_add_one_of_ne_zero positive.ne'
    -- the other reads do not matter
    let seeds := List.replicate m 0 ++ [seed]
    have smalls : ∀ seed ∈ seeds ++ [0], seed < 2 ^ 32 := by
      intro seed' member
      simp only [seeds, List.mem_append, List.mem_replicate, List.mem_singleton] at member
      omega
    have ran := ensures_random_string_words (m := m + 1)
      (p := { p with reads := (seeds ++ [0]).map fun seed => .ok (word seed) }) (by simp [seeds]) smalls rfl
    rw [Generator.reseed_concat] at ran
    exact ⟨_, _, ran.eq_ok⟩

/-- Every string of `n` letters and digits is produced. -/
def AllProduced (p : Process g) (n : ℕ) : Prop :=
  ∀ w : Text, w.length = n → (∀ c ∈ w, Alphanumeric c) → Produces p n w

theorem allProduced_iff_covers (p : Process g) {n : ℕ} (positive : 0 < n) :
    AllProduced p n ↔ g.Covers (2 ^ 32) n := by
  have injective : Function.Injective (List.map charset.get) :=
    List.map_injective_iff.mpr (List.nodup_iff_injective_get.mp charset_nodup)
  constructor
  · intro all l count
    have letters : ∀ c ∈ l.map charset.get, Alphanumeric c := by
      intro c member
      obtain ⟨k, -, rfl⟩ := List.mem_map.mp member
      exact (mem_charset_iff _).mp (List.get_mem charset k)
    obtain ⟨seed, small, drawn⟩ := (produces_iff p positive _).mp (all _ (by rw [List.length_map, count]) letters)
    exact ⟨seed, small, injective drawn⟩
  · intro covers w count letters
    obtain ⟨l, rfl⟩ : ∃ l : List (Fin charset.length), l.map charset.get = w := by
      have ranged : w ∈ Set.range (List.map charset.get) := by
        rw [Set.range_list_map]
        exact fun c member => List.get_of_mem ((mem_charset_iff c).mpr (letters c member))
      exact ranged
    obtain ⟨seed, small, drawn⟩ := covers l (by rwa [List.length_map] at count)
    exact (produces_iff p positive _).mpr ⟨seed, small, congrArg _ drawn⟩

/-- The strings are those of the generator for a single seed. -/
theorem allProduced_iff (first : ∀ k, ∃ seed < 2 ^ 32, (g.random (g.randomseed seed)).1 = k) (p : Process g) {n : ℕ}
    (positive : 0 < n) : AllProduced p n ↔ n = 1 ∨ (n ≤ 5 ∧ g.Covers (2 ^ 32) n) := by
  rw [allProduced_iff_covers p positive]
  constructor
  · intro covers
    refine Or.inr ⟨?_, covers⟩
    by_contra long
    have strings : 62 ^ 6 ≤ 62 ^ n := Nat.pow_le_pow_right (by decide) (by omega)
    have seeds : 62 ^ n ≤ 2 ^ 32 := covers.pow_le
    exact absurd (strings.trans seeds) (by decide)
  · rintro (rfl | ⟨-, covers⟩)
    · exact Generator.covers_one_iff.mpr first
    · exact covers

/-- The generator of `math.random(1, #charset)`. -/
def library : Generator charset.length := luajit charset.length (by decide) (fits_of_lt (by decide))

theorem library_first (k : Fin charset.length) :
    ∃ seed < 2 ^ 32, (library.random (library.randomseed seed)).1 = k := luajit_first k

/-- At the start of the program. -/
def fresh : Process library := ⟨[], lj_prng_seed_fixed⟩

theorem allProduced_fresh_one : AllProduced fresh 1 :=
  (allProduced_iff library_first fresh (by decide)).mpr (Or.inl rfl)

/-- Most strings of six characters are missed, although each character is drawn first for some seed. -/
theorem six_characters_missed :
    (∀ k, ∃ seed < 2 ^ 32, (library.random (library.randomseed seed)).1 = k) ∧ ¬ AllProduced fresh 6 := by
  refine ⟨library_first, ?_⟩
  rw [allProduced_iff_covers fresh (by decide)]
  intro covers
  have strings : 62 ^ 6 ≤ 2 ^ 32 := covers.pow_le
  exact absurd strings (by decide)

end Strings

end OmniaJit.Random
