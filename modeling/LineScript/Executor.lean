import LineScript.Program
import LineScript.Statement.Run
import LineScript.Text.Lines

/-!
# Running programs

An executor runs programs one after the other and remembers two things between
them: the errors of all runs, and the position of the last statement, at which a
flush that fails is reported.
-/

namespace LineScript

structure Executor where
  position : Position
  errors : List RuntimeError
  deriving DecidableEq, Repr

/-- What one run leaves. With a fault the run broke off at that point. -/
structure Run (σ : Type) where
  executor : Executor
  program : Program
  sink : σ
  log : List Event
  fault : Option Fault

namespace Executor

variable {σ : Type}

/-- An executor that ran nothing yet. -/
def fresh : Executor :=
  { position := .start, errors := [] }

/-- The root block of a program runs, and then the sink is flushed. -/
def runRoot (out : Sink σ) (s : State σ) (root : Block) : Effect σ :=
  let effect :=
    Statement.inside root.position root.table s fun s =>
      Statement.runAll out root.table s root.body
  match effect.halt with
  | some _ => effect
  | none =>
    let (state, halt) := effect.state.flush out
    { effect with state, halt }

/-- Runs a program. An error that ends the run is noted like the others. -/
def execute (out : Sink σ) (x : Executor) (program : Program) (sink : σ) : Run σ :=
  let effect :=
    runRoot out { arena := program.arena, sink, position := x.position } program.root
  let noted := x.errors ++ effect.errors
  let log := .executing program.arena.tables.size :: effect.log
  let run (errors : List RuntimeError) (log : List Event) (fault : Option Fault) : Run σ :=
    { executor := { position := effect.state.position, errors }
      program := { program with arena := effect.state.arena }
      sink := effect.state.sink
      log
      fault }
  match effect.halt with
  | some (.fault f) => run noted log (some f)
  | some (.error e) =>
    let errors := noted ++ [e]
    run errors (log ++ [.aborted e, .executed errors.length]) none
  | none => run noted (log ++ [.executed noted.length]) none

end Executor

/-- What interpreting a source text leaves. -/
structure Interpretation (σ : Type) where
  program : Program
  errors : List Diagnostic
  sink : σ
  log : List Event
  fault : Option Fault

/-- Reads a source text and, if it has no errors, runs it. -/
def interpret {σ : Type} (out : Sink σ) (sink : σ) (source : String) : Interpretation σ :=
  let parsed := Program.parse (Text.lines source)
  if parsed.isOk then
    let run := Executor.fresh.execute out parsed.program sink
    let errors := run.executor.errors
    let last : List Event := if run.fault.isSome then [] else [.finished errors.length]
    { program := run.program
      errors := errors.map .runtime
      sink := run.sink
      log := parsed.log ++ run.log ++ last
      fault := run.fault }
  else
    { program := parsed.program, errors := parsed.errors, sink, log := parsed.log, fault := none }

end LineScript
