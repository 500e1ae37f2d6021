import LineScript.Diagnostic.Runtime
import LineScript.Expr

/-!
# Values of expressions

An expression is evaluated in a block of a running program. Operands are taken
from the left, then the operator is applied to the first operand and the value of
the whole rest of the chain.
-/

namespace LineScript

/-- Why evaluation stopped: an error of the script, or a handle that the arena
does not know. -/
inductive Halt where
  | error (e : RuntimeError)
  | fault (f : Fault)
  deriving DecidableEq, Repr

/-- Where an expression is evaluated: the scopes, the table of the block, and the
position of the statement. -/
structure Scene where
  arena : Arena
  table : TableId
  position : Position

namespace Scene

def overflow (scene : Scene) : Halt :=
  .error { position := scene.position, cause := .overflow }

/-- Passes a fault on. -/
def checked {α : Type} : Except Fault α → Except Halt α
  | .ok a => .ok a
  | .error f => .error (.fault f)

/-- A result that may be too large for an integer. -/
def inRange (scene : Scene) : Option Number → Except Halt Number
  | some n => .ok n
  | none => .error scene.overflow

/-- Applies an operator. -/
def apply (scene : Scene) (a : Number) (op : Operator) (b : Number) : Except Halt Number :=
  scene.inRange <|
    match op with
    | .add => a.add? b
    | .sub => a.sub? b
    | .mul => a.mul? b
    | .div => some (a.div b)

end Scene

namespace Reference

def flawed (ref : Reference) (flaw : ReferenceFlaw) : Halt :=
  .error { position := ref.position, cause := .invalidReference ref.name flaw }

/-- The value of the variable, if it can be seen from the block. -/
def read (scene : Scene) (ref : Reference) : Except Halt Value := do
  let visible ← Scene.checked (scene.arena.isVisible scene.table ref.symbol)
  if visible then return (← Scene.checked (scene.arena.symbol ref.symbol)).value
  else throw (ref.flawed .notVisible)

def readNumber (scene : Scene) (ref : Reference) : Except Halt Number := do
  match ← ref.read scene with
  | .number n => return n
  | .string _ => throw (ref.flawed (.expected .number))

def readString (scene : Scene) (ref : Reference) : Except Halt String := do
  match ← ref.read scene with
  | .string text => return text
  | .number _ => throw (ref.flawed (.expected .string))

end Reference

mutual

def NumExpr.eval (scene : Scene) : NumExpr → Except Halt Number
  | .single term => term.eval scene
  | .chain term op rest => do
    let a ← term.eval scene
    let b ← rest.eval scene
    scene.apply a op b

def Term.eval (scene : Scene) : Term → Except Halt Number
  | .single factor => factor.eval scene
  | .chain factor op rest => do
    let a ← factor.eval scene
    let b ← rest.eval scene
    scene.apply a op b

/-- A negation is the product with minus one, so the smallest integer has none. -/
def Factor.eval (scene : Scene) : Factor → Except Halt Number
  | .literal n => .ok n
  | .paren inner => inner.eval scene
  | .negate inner => do
    let a ← inner.eval scene
    scene.apply a .mul (.integer (-1))
  | .reference ref => ref.readNumber scene

end

def StringOperand.eval (scene : Scene) : StringOperand → Except Halt String
  | .literal text => .ok text
  | .reference ref => ref.readString scene

def StringExpr.eval (scene : Scene) : StringExpr → Except Halt String
  | .single operand => operand.eval scene
  | .chain operand rest => do
    let a ← operand.eval scene
    let b ← rest.eval scene
    return a ++ b

def Expr.eval (scene : Scene) : Expr → Except Halt Value
  | .number e => do return .number (← e.eval scene)
  | .string e => do return .string (← e.eval scene)

end LineScript
