import OmniaJit.Lua.StringFormat
import OmniaJit.Lua.Table

/-! # The script launchers

The bundled C main stores the command line in the global `arg`, with the executable at 0.
`bin/ll.lua` and `bin/omnia.lua` both shift that table down by one before they run the script that
the command line names. The first works on a clone, whose last entry no assignment reaches; the
second fills a new table.
-/

namespace OmniaJit.Bin

open OmniaJit.Lua

/-- `createargtable` of the generated C program. -/
def createargtable (argv : List Text) (script : ℕ) : Table Text :=
  let script := if script = argv.length then 0 else script
  Table.empty.fill 0 argv.length script fun i => argv[i]?

/-- The global `arg` of a program started with this command line. -/
def mainArg (argv : List Text) : Table Text := createargtable argv 0

/-- `getargs` of `bin/ll.lua`. The clone has the same entries, and its length is read once. -/
def getargs (arg : Table Text) : Table Text :=
  let a := arg
  a.fill 1 a.length 1 fun i => arg.get i

/-- The table `bin/omnia.lua` builds. -/
def omniaArgv (arg : Table Text) : Table Text :=
  let argv := Table.empty.set 0 (arg.get 1)
  if arg.length > 1 then argv.fill 2 (arg.length - 1) 1 fun i => arg.get i else argv

/-- `t` gives a script its own arguments and no more. -/
def HandsOver (script : Text) (args : List Text) (t : Table Text) : Prop :=
  t.get 0 = some script ∧ (∀ i < args.length, t.get (i + 1) = args[i]?) ∧
    ∀ i : ℤ, args.length < i → t.get i = none

/-- The command line `exe script a1 ... an`. -/
def commandLine (exe script : Text) (args : List Text) : List Text := exe :: script :: args

section Tables

variable (exe script : Text) (args : List Text)

theorem mainArg_get (argv : List Text) (i : ℤ) :
    (mainArg argv).get i = if 0 ≤ i then argv[i.toNat]? else none := by
  rw [mainArg, createargtable, ite_self, Table.get_fill, Table.get_empty]
  by_cases inside : 0 ≤ i ∧ i < argv.length
  · rw [if_pos (by simpa using inside), if_pos inside.1]
    simp
  · rw [if_neg (by simpa using inside)]
    split_ifs with positive
    · rw [List.getElem?_eq_none (by omega)]
    · rfl

theorem mainArg_commandLine_length :
    (mainArg (commandLine exe script args)).length = args.length + 1 := by
  have entries : (commandLine exe script args).length = args.length + 2 := rfl
  apply Table.length_eq
  · rw [mainArg_get, if_pos (by omega), List.getElem?_eq_none (by rw [entries]; omega)]
  · intro i bound
    rw [mainArg_get, if_pos (by omega), List.getElem?_eq_getElem (by rw [entries]; omega)]
    exact Option.some_ne_none _

/-- The entry at `i + 1` is the one the script should see at `i`. -/
theorem mainArg_commandLine_succ (i : ℕ) :
    (mainArg (commandLine exe script args)).get (i + 1) = (script :: args)[i]? := by
  rw [mainArg_get, if_pos (by omega), show ((i : ℤ) + 1).toNat = i + 1 by omega, commandLine,
    List.getElem?_cons_succ]

theorem getargs_get (i : ℤ) :
    (getargs (mainArg (commandLine exe script args))).get i =
      if 0 ≤ i ∧ i ≤ args.length then (mainArg (commandLine exe script args)).get (i + 1)
      else (mainArg (commandLine exe script args)).get i := by
  rw [getargs, Table.get_fill, mainArg_commandLine_length]
  by_cases inside : 0 ≤ i ∧ i ≤ args.length
  · rw [if_pos (by omega), if_pos inside, show (((i + 1).toNat : ℕ) : ℤ) = i + 1 by omega]
  · rw [if_neg (by omega), if_neg inside]

theorem omniaArgv_get (i : ℤ) :
    (omniaArgv (mainArg (commandLine exe script args))).get i =
      if 0 ≤ i ∧ i ≤ args.length then (mainArg (commandLine exe script args)).get (i + 1)
      else none := by
  have filled : omniaArgv (mainArg (commandLine exe script args)) =
      (Table.empty.set 0 ((mainArg (commandLine exe script args)).get 1)).fill 2 args.length 1
        fun i => (mainArg (commandLine exe script args)).get i := by
    rw [omniaArgv, mainArg_commandLine_length, Nat.add_sub_cancel]
    split_ifs with more
    · rfl
    · rw [show args.length = 0 by omega]
      rfl
  rw [filled, Table.get_fill, Table.get_set]
  by_cases first : i = 0
  · subst first
    rw [if_neg (by omega), if_pos rfl, if_pos (by omega), Int.zero_add]
  · by_cases inside : 0 ≤ i ∧ i ≤ args.length
    · rw [if_pos (by omega), if_pos inside, show (((i + 1).toNat : ℕ) : ℤ) = i + 1 by omega]
    · rw [if_neg (by omega), if_neg first, if_neg inside, Table.get_empty]

/-- What the script should see, in one list. -/
theorem handsOver_of_get {script : Text} {args : List Text} {t : Table Text}
    (own : ∀ i : ℕ, i ≤ args.length → t.get i = (script :: args)[i]?)
    (none : ∀ i : ℤ, args.length < i → t.get i = none) : HandsOver script args t := by
  refine ⟨own 0 (by omega), fun i bound => ?_, none⟩
  rw [show (i : ℤ) + 1 = ((i + 1 : ℕ) : ℤ) by omega, own (i + 1) (by omega),
    List.getElem?_cons_succ]

/-- The launcher that fills a new table is right. -/
theorem omniaArgv_handsOver :
    HandsOver script args (omniaArgv (mainArg (commandLine exe script args))) := by
  apply handsOver_of_get
  · intro i bound
    rw [omniaArgv_get, if_pos (by omega), mainArg_commandLine_succ]
  · intro i above
    rw [omniaArgv_get, if_neg (by omega)]

/-- The shift leaves the last entry of the command line in place, one above where it belongs. -/
theorem getargs_last :
    (getargs (mainArg (commandLine exe script args))).get (args.length + 1) =
      (script :: args).getLast? := by
  rw [getargs_get, if_neg (by omega), mainArg_commandLine_succ, List.getLast?_eq_getElem?]
  rfl

end Tables

/-- Both launchers hand the script of a command line exactly its own arguments. -/
def LaunchersHandOver (exe script : Text) (args : List Text) : Prop :=
  HandsOver script args (getargs (mainArg (commandLine exe script args))) ∧
    HandsOver script args (omniaArgv (mainArg (commandLine exe script args)))

/-- `bin/ll.lua` gives every script one argument too many: the last entry of its command line,
above all others, and nothing else is wrong. -/
theorem launchers_never_handOver (exe script : Text) (args : List Text) :
    ¬ LaunchersHandOver exe script args ∧
      HandsOver script args (omniaArgv (mainArg (commandLine exe script args))) ∧
      ∀ i : ℤ, (getargs (mainArg (commandLine exe script args))).get i =
        if i = args.length + 1 then (script :: args).getLast?
        else (omniaArgv (mainArg (commandLine exe script args))).get i := by
  have last := getargs_last exe script args
  refine ⟨?_, omniaArgv_handsOver exe script args, fun i => ?_⟩
  · rintro ⟨⟨-, -, above⟩, -⟩
    rw [above _ (by omega), List.getLast?_cons] at last
    contradiction
  · split_ifs with excess
    · rw [excess, last]
    · rw [getargs_get, omniaArgv_get]
      split_ifs with inside
      · rfl
      · rw [mainArg_get]
        split_ifs
        · rw [List.getElem?_eq_none (by simp [commandLine]; omega)]
        · rfl

/-- A script started without arguments finds its own name as its first one. -/
theorem script_is_its_argument : ¬ ∀ (exe script : Text) (args : List Text),
    LaunchersHandOver exe script args := by
  intro handOver
  have none := (handOver "ll".toList "a.lua".toList []).1.2.2 1 (by decide)
  have found : (getargs (mainArg (commandLine "ll".toList "a.lua".toList []))).get 1 =
      some "a.lua".toList := getargs_last "ll".toList "a.lua".toList []
  rw [none] at found
  contradiction

end OmniaJit.Bin
