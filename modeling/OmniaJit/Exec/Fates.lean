import OmniaJit.Exec.Outcome
import OmniaJit.Exec.Redirect

/-! # Which calls fail

The arguments of `exec.spawn` select the calls either process makes, and their fates decide how far it gets.
Which call fails first, whether the child tells of a failure, with which status it ends and which failure
the parent notices are functions of the arguments and the fates.
-/

namespace OmniaJit.Exec

open OmniaJit.Machine OmniaJit.Posix OmniaJit.FfiExt

namespace Assignment

variable (s : Assignment)

/-- The errno of the first call that fails, of those made at these places in this order. -/
def firstOf (sites : List Site) : Option Errno := sites.findSome? s.fate

@[simp] theorem firstOf_nil : s.firstOf [] = none := rfl

@[simp] theorem firstOf_cons (site : Site) (sites : List Site) :
    s.firstOf (site :: sites) = (s.fate site).or (s.firstOf sites) := by
  rw [firstOf, List.findSome?_cons]
  cases s.fate site <;> rfl

theorem firstOf_append (sites sites' : List Site) :
    s.firstOf (sites ++ sites') = (s.firstOf sites).or (s.firstOf sites') := List.findSome?_append

end Assignment

/-- The calls up to `fork`. -/
def setupSites : List Site :=
  [.pipe .stdin, .pipe .stdout, .pipe .stderr, .pipe .errno, .getfd, .setfd, .fork]

/-- Those that end the function if they fail. The result of `F_GETFD` is not tested. -/
def testedSites : List Site := [.pipe .stdin, .pipe .stdout, .pipe .stderr, .pipe .errno, .setfd, .fork]

/-- The option is a value that gives no file name, over which the child ends in a Lua error. -/
def raises (target : Option Target) (dest : Stream) : Bool :=
  target.any fun target => !target.names dest.other && !target.isPath

/-- The calls that give the child's descriptor `dest` its file. -/
def outputSites (target : Option Target) (dest : Stream) : List Site :=
  if target.any fun target => !target.names dest.other then [.open dest.fd, .dup2 dest.fd] else [.dup2 dest.fd]

/-- The calls of the child, up to a Lua error. -/
def Args.childSites (a : Args) : List Site :=
  (if a.stdin.isSome then [.dup2 STDIN] else []) ++
    if raises a.stdout .stdout then []
    else outputSites a.stdout .stdout ++
      if raises a.stderr .stderr then []
      else outputSites a.stderr .stderr ++
        ((List.range a.env.length).map .setenv ++ ((if a.cwd.isSome then [.chdir] else []) ++ [.execv]))

namespace Assignment

variable (s : Assignment) (a : Args)

/-- The first failure in the child. -/
def childFailing : Option Errno := s.firstOf a.childSites

/-- The child has failed and has put its errno into the pipe. -/
def ChildTells : Prop := (s.childFailing a).isSome ∧ s.fate .errnoWrite = none

instance : Decidable (s.ChildTells a) := inferInstanceAs (Decidable (_ ∧ _))

/-- What `waitpid` gives: the status 0 of `_exit(0)` if the child has failed. -/
def exitWord : ℕ := if (s.childFailing a).isSome then 0 else s.status

/-- The first failure of the calls that collect one stream. -/
def streamFailing (stream : Stream) : Option Errno :=
  (s.firstOf [.getfl stream, .setfl stream]).or (s.ending stream)

/-- The first failure in the parent after `fork`. It goes no further than the errno pipe if it reads something
there, and collects no output of a child that was killed. -/
def parentFailing : Option Errno :=
  (if a.stdin.isSome then s.fate .stdinWrite else none).or <| (s.fate .errnoRead).or <|
    if s.ChildTells a then none
    else (s.fate .waitpid).or <|
      if Normal (s.exitWord a) then (s.streamFailing .stdout).or (s.streamFailing .stderr) else none

/-- The first failure of the call. -/
def firstFailing (childFirst : Bool) : Option Errno :=
  (s.firstOf setupSites).or <|
    if childFirst then (s.childFailing a).or (s.parentFailing a)
    else (s.parentFailing a).or (s.childFailing a)

/-- The errno in the error of the parent: a call whose result it tests, or its own errno, which has nothing to do
with the failure, if the child tells of one. -/
def noticed (e₀ : Errno) : Option Errno :=
  (s.firstOf testedSites).or <|
    (if a.stdin.isSome then s.fate .stdinWrite else none).or <|
    (if s.ChildTells a ∧ s.fate .errnoRead = none then some ((s.fate .getfd).getD e₀) else none).or <|
    (s.fate .waitpid).or <|
    if Normal (s.exitWord a) then s.firstOf [.setfl .stdout, .setfl .stderr] else none

/-- Every call before the two processes part succeeds, apart perhaps from `F_GETFD`. -/
structure Forks : Prop where
  pipes : ∀ name, s.fate (.pipe name) = none
  setfd : s.fate .setfd = none
  fork : s.fate .fork = none

variable {s} {a}

theorem Forks.tested (forks : s.Forks) : s.firstOf testedSites = none := by
  simp only [testedSites, firstOf_cons, forks.pipes, forks.setfd, forks.fork, Option.none_or, firstOf_nil]

theorem Forks.setup (forks : s.Forks) : s.firstOf setupSites = s.fate .getfd := by
  simp only [setupSites, firstOf_cons, forks.pipes, forks.setfd, forks.fork, Option.none_or, firstOf_nil,
    Option.or_none]

/-- What fails before that is the first failure. -/
theorem setup_ne_none (alone : ¬ s.Forks) : s.firstOf setupSites ≠ none := by
  intro quiet
  have succeeded : ∀ site ∈ setupSites, s.fate site = none := List.findSome?_eq_none_iff.mp quiet
  refine alone ⟨fun name => succeeded _ ?_, succeeded _ (by decide), succeeded _ (by decide)⟩
  cases name <;> decide

/-- The parent notices nothing where nothing has failed. -/
theorem noticed_eq_none {e₀ : Errno} {childFirst : Bool} (quiet : s.firstFailing a childFirst = none) :
    s.noticed a e₀ = none := by
  have failing : s.firstOf setupSites = none ∧ s.childFailing a = none ∧ s.parentFailing a = none := by
    rw [firstFailing, Option.or_eq_none_iff] at quiet
    refine ⟨quiet.1, ?_⟩
    cases childFirst with
    | false => exact (Option.or_eq_none_iff.mp quiet.2).symm
    | true => exact Option.or_eq_none_iff.mp quiet.2
  obtain ⟨setup, child, parent⟩ := failing
  have silent : ¬ s.ChildTells a := fun tells => by
    rw [ChildTells, child] at tells
    exact Bool.false_ne_true tells.1
  have unsaid : ¬ (s.ChildTells a ∧ s.fate .errnoRead = none) := fun both => silent both.1
  rw [parentFailing, if_neg silent] at parent
  simp only [Option.or_eq_none_iff] at parent
  obtain ⟨sent, -, waited, streams⟩ := parent
  simp only [setupSites, firstOf_cons, Option.or_eq_none_iff] at setup
  simp only [noticed, testedSites, if_neg unsaid, firstOf_cons, Option.or_eq_none_iff, setup, sent, waited,
    true_and, and_true]
  split_ifs at streams ⊢ with normal
  · simp only [streamFailing, firstOf_cons, Option.or_eq_none_iff] at streams
    simp only [streams, Option.or_none]
  · rfl

end Assignment

end OmniaJit.Exec
