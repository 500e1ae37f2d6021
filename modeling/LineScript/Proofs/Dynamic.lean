import LineScript.Diagnostic.Runtime
import LineScript.Proofs.Scope.Frames
import LineScript.Statement

/-!
# Names resolved at run time

The meaning of a program in terms of names alone. A running program has a stack of
frames with values in them, one frame for each block that it is in. Handles of
tables and symbols play no part: every name is looked up in the frames as they are
when it is used.

An evaluation overflows or is stuck at a name. An overflow is an error of the
script and the statement has no other effect; stuck means that the program has no
meaning.
-/

namespace LineScript.Dynamic

/-- Why an evaluation has no value. -/
inductive Failure where
  | overflow
  /-- A name is bound nowhere, or to a value of the wrong kind. -/
  | stuck
  deriving DecidableEq, Repr

/-! ## Expressions -/

/-- A result that may be too large for an integer. -/
def inRange : Option Number → Except Failure Number
  | some n => .ok n
  | none => .error .overflow

def apply (a : Number) (op : Operator) (b : Number) : Except Failure Number :=
  match op with
  | .add => inRange (a.add? b)
  | .sub => inRange (a.sub? b)
  | .mul => inRange (a.mul? b)
  | .div => .ok (a.div b)

section eval

variable (env : Frames Value)

/-- What the name stands for. -/
def value (name : String) : Except Failure Value :=
  match env.lookup name with
  | some v => .ok v
  | none => .error .stuck

def number (name : String) : Except Failure Number := do
  match ← value env name with
  | .number n => return n
  | .string _ => throw .stuck

def text (name : String) : Except Failure String := do
  match ← value env name with
  | .string text => return text
  | .number _ => throw .stuck

mutual

def evalNum : NumExpr → Except Failure Number
  | .single term => evalTerm term
  | .chain term op rest => do
    let a ← evalTerm term
    let b ← evalNum rest
    apply a op b

def evalTerm : Term → Except Failure Number
  | .single factor => evalFactor factor
  | .chain factor op rest => do
    let a ← evalFactor factor
    let b ← evalTerm rest
    apply a op b

def evalFactor : Factor → Except Failure Number
  | .literal n => .ok n
  | .paren inner => evalNum inner
  | .negate inner => do
    let a ← evalFactor inner
    apply a .mul (.integer (-1))
  | .reference ref => number env ref.name

end

def evalOperand : StringOperand → Except Failure String
  | .literal text => .ok text
  | .reference ref => text env ref.name

def evalString : StringExpr → Except Failure String
  | .single operand => evalOperand env operand
  | .chain operand rest => do
    let a ← evalOperand env operand
    let b ← evalString rest
    return a ++ b

def eval : Expr → Except Failure Value
  | .number e => do return .number (← evalNum env e)
  | .string e => do return .string (← evalString env e)

end eval

/-- What is stored by a compound assignment. -/
def add : Value → Value → Except Failure Value
  | .number a, .number b => do return .number (← inRange (a.add? b))
  | .string a, .string b => return .string (a ++ b)
  | _, _ => throw .stuck

/-! ## Statements -/

structure State where
  /-- One frame for each block that is running, the innermost first. -/
  frames : Frames Value
  /-- The last frames of the blocks that were left, in that order. -/
  closed : List (Frame Value)
  output : ByteArray
  errors : List RuntimeError

namespace State

/-- Nothing is running yet. -/
def start : State :=
  { frames := [], closed := [], output := ByteArray.empty, errors := [] }

def bind (s : State) (name : String) (v : Value) : State :=
  { s with frames := s.frames.bind name v }

def assign (s : State) (name : String) (v : Value) : State :=
  { s with frames := s.frames.assign name v }

def write (s : State) (text : String) : State :=
  { s with output := s.output ++ text.toUTF8 }

def report (s : State) (position : Position) : State :=
  { s with errors := s.errors ++ [{ position, cause := .overflow }] }

/-- Goes on with the result, or reports an overflow and keeps the given state. -/
def attempt {α : Type} (s : State) (position : Position) (result : Except Failure α)
    (next : α → State) : Option State :=
  match result with
  | .ok x => some (next x)
  | .error .overflow => some (s.report position)
  | .error .stuck => none

def enter (s : State) : State :=
  { s with frames := [] :: s.frames }

/-- Leaves the innermost block. -/
def leave (s : State) : Option State :=
  match s.frames with
  | [] => none
  | frame :: outer => some { s with frames := outer, closed := s.closed ++ [frame] }

end State

/-- The text that is printed. -/
def printed (env : Frames Value) (newline : Bool) (payload : Option Expr) :
    Except Failure String := do
  let text ←
    match payload with
    | some e => Value.text <$> eval env e
    | none => pure ""
  return if newline then text ++ "\n" else text

/-- The value that is assigned to a name. -/
def assigned (env : Frames Value) (name : String) (compound : Bool) (e : Expr) :
    Except Failure Value := do
  let v ← eval env e
  let old ← value env name
  if compound then add old v else return v

mutual

/-- Runs a statement. A declared name is bound in the top frame, to its initial value
if there is no other; an assigned one is changed in the innermost frame that binds it. -/
def run (s : State) : Statement → Option State
  | .null => some s
  | .declare _ name _ kind none => some (s.bind name kind.initial)
  | .declare position name _ kind (some e) =>
    (s.bind name kind.initial).attempt position (eval s.frames e) fun v => s.bind name v
  | .assign position name _ compound e =>
    s.attempt position (assigned s.frames name compound e) fun v => s.assign name v
  | .print position newline payload =>
    s.attempt position (printed s.frames newline payload) fun text => s.write text
  | .block _ _ body => (runAll s.enter body).bind State.leave

def runAll (s : State) : List Statement → Option State
  | [] => some s
  | statement :: rest => (run s statement).bind fun t => runAll t rest

end

/-- Runs a whole program, whose statements are one block. -/
def runProgram (p : Program) : Option State :=
  (runAll State.start.enter p.root.body).bind State.leave

end LineScript.Dynamic
