import OmniaJit.Exec.Setup

/-! # The output collector

The loop of `output` reads one byte at a time and keeps the finished lines and the line being read.
Interrupted reads change neither, so what it leaves is what the pipe delivered, cut at the line ends.
-/

namespace OmniaJit.Exec

open OmniaJit.Machine OmniaJit.FfiExt

/-- The results of the one-byte reads that deliver `b` and then the end of the file. -/
inductive Arrives : List (Except Errno (Option Byte)) → Bytes → Prop
  | ends : Arrives [.ok none] []
  | byte (c : Byte) {reads : List (Except Errno (Option Byte))} {b : Bytes} :
      Arrives reads b → Arrives (.ok (some c) :: reads) (c :: b)
  | interrupted {e : Errno} {reads : List (Except Errno (Option Byte))} {b : Bytes} :
      Transient e → Arrives reads b → Arrives (.error e :: reads) b

/-- The lines of `b`: none has a line end, and with one between any two they are `b`. -/
structure Lines (b : Bytes) (o : List Bytes) : Prop where
  plain : ∀ line ∈ o, Lua.newline ∉ line
  nonempty : o ≠ []
  whole : [Lua.newline].intercalate o = b

theorem Lines.eq_splitOn {b : Bytes} {o : List Bytes} (lines : Lines b o) : o = b.splitOn Lua.newline := by
  rw [← lines.whole]
  exact (List.splitOn_intercalate Lua.newline lines.plain lines.nonempty).symm

theorem Lines.single {s : Bytes} (plain : Lua.newline ∉ s) : Lines s [s] where
  plain line member := by rwa [List.mem_singleton.mp member]
  nonempty := List.cons_ne_nil _ _
  whole := List.intercalate_singleton ..

theorem Lines.cons {s b : Bytes} {o : List Bytes} (plain : Lua.newline ∉ s) (lines : Lines b o) :
    Lines (s ++ Lua.newline :: b) (s :: o) where
  plain line member := by
    rcases List.mem_cons.mp member with rfl | member
    · exact plain
    · exact lines.plain line member
  nonempty := List.cons_ne_nil _ _
  whole := by
    rw [List.intercalate_cons_of_ne_nil lines.nonempty, lines.whole, List.append_assoc]
    rfl

/-- How a read of one byte is logged. -/
def readEvent (i : Fd) (on : Except Errno (Option Byte)) : Event :=
  .read i (on.map fun byte => byte.elim 0 fun _ => 1)

/-- The reads that are made, and the close after them. -/
def Read (i : Fd) (reads : List (Except Errno (Option Byte))) (before after : Proc) : Prop :=
  ∃ closed, after.events = before.events ++ reads.map (readEvent i) ++ [.close i closed]

theorem Read.cons {i : Fd} {on : Except Errno (Option Byte)} {reads : List (Except Errno (Option Byte))}
    {before after : Proc} (read : Read i reads (before.record (readEvent i on)) after) :
    Read i (on :: reads) before after := by
  obtain ⟨closed, events⟩ := read
  exact ⟨closed, by rw [events, Proc.record_events, List.map_cons, List.append_assoc before.events]; rfl⟩

/-- The loop, from any state of it. -/
theorem readLines_lines {i : Fd} {reads : List (Except Errno (Option Byte))} {b : Bytes}
    (arrives : Arrives reads b) (rest : List (Except Errno (Option Byte))) (o : List Bytes) {s : Bytes}
    (plain : Lua.newline ∉ s) (p : Proc) :
    Program.Ensures (readLines i (reads ++ rest) o s) p
      (fun lines after => ∃ more, lines = o ++ more ∧ Lines (s ++ b) more ∧ Read i reads p after)
      (fun _ _ => False) := by
  induction arrives generalizing o s p with
  | ends =>
    refine ⟨[s], rfl, ?_, ?_⟩
    · rw [List.append_nil]
      exact .single plain
    · exact ⟨_, rfl⟩
  | @byte c reads b arrives ih =>
    simp only [List.cons_append, readLines, Program.ensures_bind, Program.ensures_modify,
      Program.ensures_ite]
    constructor
    · intro inside
      have plain' : Lua.newline ∉ s ++ [c] := by
        rw [List.mem_append, List.mem_singleton, not_or]
        exact ⟨plain, inside.symm⟩
      refine (ih o plain' _).mono (fun lines after collected => ?_) (fun _ _ never => never)
      obtain ⟨more, same, lines, read⟩ := collected
      rw [List.append_assoc] at lines
      exact ⟨more, same, lines, read.cons⟩
    · intro ended
      obtain rfl := not_not.mp ended
      refine (ih (o ++ [s]) List.not_mem_nil _).mono (fun lines after collected => ?_) (fun _ _ never => never)
      obtain ⟨more, rfl, lines, read⟩ := collected
      exact ⟨s :: more, List.append_assoc .., .cons plain lines, read.cons⟩
  | interrupted transient arrives ih =>
    simp only [List.cons_append, readLines, Program.ensures_bind, Program.ensures_modify, transient,
      if_true]
    refine (ih o plain _).mono (fun lines after collected => ?_) (fun _ _ never => never)
    obtain ⟨more, same, lines, read⟩ := collected
    exact ⟨more, same, lines, read.cons⟩

/-- A call of `fcntl(2)` for the flags of `i`. -/
def Event.IsFcntl (i : Fd) (event : Event) : Prop := ∃ result, event = .getfl i result ∨ event = .setfl i result

/-- What `output` did: `fcntl` calls, the reads, and the close. -/
def Collected (i : Fd) (reads : List (Except Errno (Option Byte))) (before after : Proc) : Prop :=
  ∃ fcntls closed, (∀ event ∈ fcntls, event.IsFcntl i) ∧
    after.events = before.events ++ fcntls ++ reads.map (readEvent i) ++ [.close i closed]

/-- Only `fcntl` calls since `before`. -/
def Prepared (i : Fd) (before now : Proc) : Prop :=
  ∃ fcntls, (∀ event ∈ fcntls, event.IsFcntl i) ∧ now.events = before.events ++ fcntls

theorem Prepared.record {i : Fd} {before now : Proc} (prepared : Prepared i before now) {event : Event}
    (fcntl : event.IsFcntl i) {after : Proc} (events : after.events = now.events ++ [event]) :
    Prepared i before after := by
  obtain ⟨fcntls, only, same⟩ := prepared
  refine ⟨fcntls ++ [event], fun other member => ?_, by rw [events, same, List.append_assoc]⟩
  rcases List.mem_append.mp member with member | member
  · exact only other member
  · rwa [List.mem_singleton.mp member]

theorem Read.collected {i : Fd} {reads : List (Except Errno (Option Byte))} {before now after : Proc}
    (prepared : Prepared i before now) (read : Read i reads now after) : Collected i reads before after := by
  obtain ⟨fcntls, only, same⟩ := prepared
  obtain ⟨closed, events⟩ := read
  exact ⟨fcntls, closed, only, by rw [events, same]⟩

/-- `output` collects what the pipe delivers, unless `fcntl` fails for good or never returns. -/
theorem ensures_output {reads : List (Except Errno (Option Byte))} {b : Bytes} (arrives : Arrives reads b)
    {env : Environment} {stream : Stream} {rest : List (Except Errno (Option Byte))}
    (pipe : env.output stream = reads ++ rest) (i : Fd) (p : Proc) :
    Program.Ensures (output env i stream) p
      (fun sr after => match sr with
        | .ok o => Lines b o ∧ Collected i reads p after
        | .error _ => ∃ e, settle (env.attempts (.setfl stream)) = some (some e))
      (fun exit _ => exit = .blocked ∧
        (env.attempts (.getfl stream) = [] ∨ settle (env.attempts (.setfl stream)) = none)) := by
  have start : Prepared i p p := ⟨[], fun _ member => absurd member List.not_mem_nil, (List.append_nil _).symm⟩
  rw [output, Program.ensures_bind]
  -- The result of `F_GETFL` is not tested.
  have flags : Program.Ensures (once (C.getfl i) (env.attempts (.getfl stream))) p
      (fun _ now => Prepared i p now)
      (fun exit _ => exit = .blocked ∧ env.attempts (.getfl stream) = []) := by
    apply ensures_once
    · exact fun _ => start.record ⟨_, .inl rfl⟩ rfl
    · exact fun e _ => start.record ⟨_, .inl rfl⟩ rfl
    · exact fun blocked => ⟨rfl, List.head?_eq_none_iff.mp blocked⟩
  refine flags.mono (fun _oflags now prepared => ?_) (fun exit _ blocked => ⟨blocked.1, .inl blocked.2⟩)
  rw [Program.ensures_bind]
  apply ensures_retry (Prepared i p) _ prepared
  · exact fun q e _ _ prepared => prepared.record ⟨_, .inr rfl⟩ rfl
  · intro q _ prepared
    simp only [Program.ensures_bind, Program.ensures_pure]
    rw [pipe]
    refine (readLines_lines arrives rest [] List.not_mem_nil _).mono (fun o after collected => ?_)
      (fun _ _ never => never.elim)
    obtain ⟨_, rfl, lines, read⟩ := collected
    constructor
    · exact lines
    · exact read.collected (prepared.record ⟨_, .inr rfl⟩ rfl)
  · exact fun q e failed _ => ⟨e, failed⟩
  · exact fun q blocked _ => ⟨rfl, .inr blocked⟩

theorem output_lines {reads : List (Except Errno (Option Byte))} {b : Bytes} (arrives : Arrives reads b)
    {env : Environment} {stream : Stream} {rest : List (Except Errno (Option Byte))}
    (pipe : env.output stream = reads ++ rest) {i : Fd} {p after : Proc} {o : List Bytes}
    (ran : output env i stream p = .ok (.ok o) after) : Lines b o := by
  have ensures := ensures_output arrives pipe i p
  rw [Program.ensures_of_ok ran] at ensures
  exact ensures.1

/-- Nothing the pipe delivers is lost or made up: the lines are the bytes cut at the line ends, every
read is made, and two pipes that leave the same lines have delivered the same bytes. -/
theorem output_lossless {reads : List (Except Errno (Option Byte))} {b : Bytes} (arrives : Arrives reads b)
    {env : Environment} {stream : Stream} {rest : List (Except Errno (Option Byte))}
    (pipe : env.output stream = reads ++ rest) (i : Fd) (p : Proc) :
    Program.Ensures (output env i stream) p
      (fun sr after => match sr with
        | .ok o => Lines b o ∧ o = b.splitOn Lua.newline ∧ Collected i reads p after
        | .error _ => ∃ e, settle (env.attempts (.setfl stream)) = some (some e))
      (fun exit _ => exit = .blocked ∧
        (env.attempts (.getfl stream) = [] ∨ settle (env.attempts (.setfl stream)) = none)) ∧
    ∀ {reads' b' env' stream' rest' i' p' o after after'}, Arrives reads' b' →
      Environment.output env' stream' = reads' ++ rest' →
      output env i stream p = .ok (.ok o) after → output env' i' stream' p' = .ok (.ok o) after' →
      b = b' := by
  constructor
  · refine (ensures_output arrives pipe i p).mono (fun sr after collected => ?_) (fun _ _ blocked => blocked)
    cases sr with
    | ok o => exact ⟨collected.1, collected.1.eq_splitOn, collected.2⟩
    | error _ => exact collected
  · intro reads' b' env' stream' rest' i' p' o after after' arrives' pipe' ran ran'
    rw [← (output_lines arrives pipe ran).whole, (output_lines arrives' pipe' ran').whole]

/-- The child wrote `a` and a line end, with an interruption between them. -/
def Environment.interrupted : Environment :=
  { Environment.quiet with
    output := fun _ => [.ok (some 97), .error EINTR, .ok (some Lua.newline), .ok none] }

theorem output_lossless_interrupted : Lines [97, Lua.newline] [[97], []] :=
  have arrives : Arrives (Environment.interrupted.output .stdout) [97, Lua.newline] :=
    .byte 97 (.interrupted (.inl rfl) (.byte Lua.newline .ends))
  (output_lossless arrives (List.append_nil _).symm 5 (.start .standard 0)).1.1

end OmniaJit.Exec
