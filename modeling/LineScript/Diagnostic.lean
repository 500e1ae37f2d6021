import LineScript.Diagnostic.Lexical
import LineScript.Diagnostic.Grammar
import LineScript.Diagnostic.Runtime

/-!
# Diagnostics

All that a script can be told about itself, whichever stage found it.
-/

namespace LineScript

inductive Diagnostic where
  | lexical (error : LexicalError)
  | grammar (error : SyntaxError)
  | runtime (error : RuntimeError)
  deriving DecidableEq, Repr

namespace Diagnostic

def position : Diagnostic → Position
  | .lexical e => e.position
  | .grammar e => e.position
  | .runtime e => e.position

def message : Diagnostic → String
  | .lexical e => e.message
  | .grammar e => e.message
  | .runtime e => e.message

end Diagnostic

end LineScript
