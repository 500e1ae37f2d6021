import LineScript.Expr.Eval
import LineScript.Log
import LineScript.Sink
import LineScript.Statement

/-!
# Running statements

A statement changes the values in the arena and writes to the sink. It either
does its whole work or stops with an error. An error that is not fatal is noted,
and the next statement runs as if the failed one were not there.
-/

namespace LineScript

/-- What a running program changes. -/
structure State (σ : Type) where
  arena : Arena
  sink : σ
  /-- The position of the statement that was begun last. -/
  position : Position

/-- The state that statements leave, the errors that they noted, what happened,
and why they stopped, if they did not come to their end. -/
structure Effect (σ : Type) where
  state : State σ
  errors : List RuntimeError
  log : List Event
  halt : Option Halt

namespace State

variable {σ : Type}

def scene (s : State σ) (table : TableId) : Scene :=
  { arena := s.arena, table, position := s.position }

/-- An error at the statement that was begun last. -/
def failure (s : State σ) (cause : RuntimeError.Cause) : Halt :=
  .error { position := s.position, cause }

/-- What a compound assignment stores: the sum of two numbers, two strings in a
row, or the new value alone if the kinds differ. -/
def combine (s : State σ) (table : TableId) : Value → Value → Except Halt Value
  | .number a, .number b => do return .number (← (s.scene table).apply a .add b)
  | .string a, .string b => return .string (a ++ b)
  | _, value => return value

/-- Writes a text. An empty text does not reach the sink, and what a sink refuses
may have been written in part. -/
def write (out : Sink σ) (s : State σ) (text : String) : State σ × Option Halt :=
  if text.isEmpty then (s, none)
  else
    let (refusal, sink) := out.write s.sink text.toUTF8
    ({ s with sink }, refusal.map fun message => s.failure (.output message))

def flush (out : Sink σ) (s : State σ) : State σ × Option Halt :=
  let (refusal, sink) := out.flush s.sink
  ({ s with sink }, refusal.map fun message => s.failure (.output message))

/-- Prints a value or nothing. A line end is written on its own. -/
def print (out : Sink σ) (s : State σ) (table : TableId) (newline : Bool) (payload : Option Expr) :
    State σ × Option Halt :=
  let text : Except Halt String :=
    match payload with
    | some e => (e.eval (s.scene table)).map Value.text
    | none => .ok ""
  match text with
  | .error halt => (s, some halt)
  | .ok text =>
    match s.write out text, newline with
    | (s, none), true => s.write out "\n"
    | result, _ => result

end State

/-- Work on a state. Work that stops keeps what it has changed until then. -/
abbrev Work (σ α : Type) := EStateM Halt (State σ) α

namespace Work

variable {σ α : Type}

/-- Asks for what follows from the state. -/
def ask (answer : State σ → Except Halt α) : Work σ α := fun s =>
  match answer s with
  | .ok a => .ok a s
  | .error halt => .error halt s

/-- Stores a value in a variable that can be seen from the block and is of the
value's kind. -/
def store (table : TableId) (name : String) (target : SymbolId) (value : Value) : Work σ Unit := do
  let visible ← ask fun s => Scene.checked (s.arena.isVisible table target)
  if visible then
    let symbol ← ask fun s => Scene.checked (s.arena.symbol target)
    if symbol.kind = value.kind then
      let arena ← ask fun s =>
        Scene.checked (s.arena.update target fun symbol => { symbol with value })
      modify fun s => { s with arena }
    else throw ((← get).failure (.invalidTarget name (.wrongKind value.kind symbol.kind)))
  else throw ((← get).failure (.invalidTarget name .notVisible))

/-- Declares: the first value, or the initial value of the kind. -/
def declare (table : TableId) (name : String) (target : SymbolId) (kind : Kind)
    (initial : Option Expr) : Work σ Unit := do
  let value ←
    match initial with
    | some e => ask fun s => e.eval (s.scene table)
    | none => pure kind.initial
  store table name target value

def assign (table : TableId) (name : String) (target : SymbolId) (compound : Bool) (e : Expr) :
    Work σ Unit := do
  let value ← ask fun s => e.eval (s.scene table)
  if compound then
    let symbol ← ask fun s => Scene.checked (s.arena.symbol target)
    let sum ← ask fun s => s.combine table symbol.value value
    store table name target sum
  else store table name target value

/-- What work leaves, and why it stopped. -/
def settle (work : Work σ Unit) (s : State σ) : State σ × Option Halt :=
  match work.run s with
  | .ok _ t => (t, none)
  | .error halt t => (t, some halt)

end Work

namespace Statement

variable {σ : Type}

/-- A statement that begins at the position does its work. -/
def begin (position : Position) (s : State σ) (work : State σ → State σ × Option Halt) :
    Effect σ :=
  let (state, halt) := work { s with position }
  { state, errors := [], log := [.statementExecuted position], halt }

/-- Does the work of a block, whose table has to exist. -/
def inside (position : Position) (table : TableId) (s : State σ) (work : State σ → Effect σ) :
    Effect σ :=
  if s.arena.contains table then
    let effect := work s
    let left : List Event :=
      match effect.halt with
      | some (.fault _) => []
      | _ => [.blockLeft position]
    { effect with log := .blockEntered position :: effect.log ++ left }
  else
    { state := s
      errors := []
      log := []
      halt := some (.error { position, cause := .missingBlock }) }

mutual

/-- Runs a statement of the block with the given table. -/
def run (out : Sink σ) (table : TableId) (s : State σ) : Statement → Effect σ
  | .null => { state := s, errors := [], log := [], halt := none }
  | .declare position name target kind initial =>
    begin position s (Work.declare table name target kind initial).settle
  | .assign position name target compound e =>
    begin position s (Work.assign table name target compound e).settle
  | .print position newline payload =>
    begin position s fun s => s.print out table newline payload
  | .block position inner body =>
    let effect := inside position inner { s with position } fun s => runAll out inner s body
    { effect with log := .statementExecuted position :: effect.log }

/-- Runs statements in order. Only a fatal error or a fault ends them early. -/
def runAll (out : Sink σ) (table : TableId) (s : State σ) : List Statement → Effect σ
  | [] => { state := s, errors := [], log := [], halt := none }
  | statement :: rest =>
    let first := statement.run out table s
    match first.halt with
    | none =>
      let later := runAll out table first.state rest
      { later with errors := first.errors ++ later.errors, log := first.log ++ later.log }
    | some (.error e) =>
      if e.isFatal then first
      else
        let later := runAll out table first.state rest
        { later with
          errors := first.errors ++ e :: later.errors
          log := first.log ++ .statementSkipped e :: later.log }
    | some (.fault _) => first

end

end Statement

end LineScript
