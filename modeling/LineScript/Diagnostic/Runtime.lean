import LineScript.Position
import LineScript.Value

/-!
# Runtime errors

What can go wrong while a program runs. Most errors stop one statement only; an
error that leaves nothing sensible to go on with is fatal and ends the run.
-/

namespace LineScript

/-- Why a value cannot be stored in a variable. -/
inductive TargetFlaw where
  | notVisible
  | wrongKind (value target : Kind)
  deriving DecidableEq, Repr

namespace TargetFlaw

def text : TargetFlaw → String
  | .notVisible => "not visible from this block"
  | .wrongKind value target => s!"cannot store a {value.name} value in a {target.name} variable"

end TargetFlaw

/-- Why a variable cannot be read. -/
inductive ReferenceFlaw where
  | notVisible
  | expected (kind : Kind)
  deriving DecidableEq, Repr

namespace ReferenceFlaw

def text : ReferenceFlaw → String
  | .notVisible => "not visible from this block"
  | .expected kind => s!"expected a {kind.name} variable"

end ReferenceFlaw

inductive RuntimeError.Cause where
  | overflow
  | invalidTarget (name : String) (flaw : TargetFlaw)
  | invalidReference (name : String) (flaw : ReferenceFlaw)
  | missingBlock
  | output (message : String)
  deriving DecidableEq, Repr

structure RuntimeError where
  position : Position
  cause : RuntimeError.Cause
  deriving DecidableEq, Repr

namespace RuntimeError

def Cause.message : Cause → String
  | .overflow => "Integer overflow while trying to compute result."
  | .invalidTarget name flaw => s!"Invalid assignment to '{name}': {flaw.text}."
  | .invalidReference name flaw => s!"Invalid reference to '{name}': {flaw.text}."
  | .missingBlock => "Block has no symbol table."
  | .output message => s!"Failed to write output: {message}."

def message (e : RuntimeError) : String :=
  e.position.heading ++ e.cause.message

/-- Whether the error ends the run. -/
def isFatal (e : RuntimeError) : Bool :=
  match e.cause with
  | .missingBlock | .output _ => true
  | _ => false

end RuntimeError

end LineScript
