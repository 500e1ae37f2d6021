import LineScript.Position

/-!
# Lexical errors

A line that cannot be cut into tokens has one lexical error, at the first
character that starts no token.
-/

namespace LineScript

inductive LexicalError.Cause where
  /-- No token starts with this text. -/
  | unrecognized (text : String)
  /-- The line ended inside a token, which began with this text. -/
  | unterminated (text : String)
  deriving DecidableEq, Repr

structure LexicalError where
  position : Position
  cause : LexicalError.Cause
  deriving DecidableEq, Repr

namespace LexicalError

def Cause.message : Cause → String
  | .unrecognized text => s!"Unrecognized token '{text}'."
  | .unterminated text => s!"Unterminated token '{text}'."

def message (e : LexicalError) : String :=
  e.position.heading ++ e.cause.message

end LexicalError

end LineScript
