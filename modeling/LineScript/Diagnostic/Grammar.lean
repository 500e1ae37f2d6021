import LineScript.Token
import LineScript.Value

/-!
# Syntax errors

What can be wrong with a program that consists of proper tokens. Name resolution
and the check of kinds are part of reading a program, so their failures are
syntax errors too. Tokens are quoted as `Token.describe` gives them.
-/

namespace LineScript

/-- What the grammar allowed at a place where something else was found. -/
inductive Expectation where
  | endOfStatement
  | assignmentOperator
  | expression
  | expressionOf (kind : Kind)
  | numberOperand
  | stringOperand
  deriving DecidableEq, Repr

namespace Expectation

def text : Expectation → String
  | .endOfStatement => "end of statement"
  | .assignmentOperator => "'=' or '+='"
  | .expression => "an expression"
  | .expressionOf kind => s!"a {kind.name} expression"
  | .numberOperand => "a number, '(', '-' or a variable"
  | .stringOperand => "a string or a string variable"

end Expectation

/-- How a declaration can fail to be one. -/
inductive DeclarationFlaw where
  | noName (found : String)
  | noType (name found : String)
  deriving DecidableEq, Repr

namespace DeclarationFlaw

def text : DeclarationFlaw → String
  | .noName found => s!"expected a variable name, found '{found}'"
  | .noType name found => s!"expected 'number' or 'string' after '{name}', found '{found}'"

end DeclarationFlaw

inductive SyntaxError.Cause where
  | unexpectedToken (found : String)
  | expectedToken (expected : Expectation) (found : String)
  | missingClosingBrace
  | unmatchedClosingBrace
  | expectedClosingParen (found : String)
  | malformedDeclaration (flaw : DeclarationFlaw)
  | redeclaration (name : String)
  | undeclaredVariable (name : String)
  | kindMismatch (expected actual : Kind) (found : String)
  | literalTooLarge (literal : String)
  deriving DecidableEq, Repr

structure SyntaxError where
  position : Position
  cause : SyntaxError.Cause
  deriving DecidableEq, Repr

namespace SyntaxError

def Cause.message : Cause → String
  | .unexpectedToken found => s!"Unexpected token '{found}'."
  | .expectedToken expected found => s!"Expected {expected.text}, found '{found}'."
  | .missingClosingBrace => "Expected closing brace '\x7d' but none found."
  | .unmatchedClosingBrace => "Closing brace '\x7d' has no matching '\x7b'."
  | .expectedClosingParen found => s!"Expected closing parenthesis ')', found '{found}'."
  | .malformedDeclaration flaw => s!"Malformed declaration: {flaw.text}."
  | .redeclaration name => s!"Variable '{name}' is already declared in this block."
  | .undeclaredVariable name => s!"Undeclared variable '{name}'."
  | .kindMismatch expected actual found =>
    s!"Expected a {expected.name} value, but '{found}' is a {actual.name}."
  | .literalTooLarge literal => s!"Literal '{literal}' is too large."

def message (e : SyntaxError) : String :=
  e.position.heading ++ e.cause.message

/-- Whether the rest of the block is given up. Without its declaration a name
would be reported at each of its uses. -/
def abortsBlock (e : SyntaxError) : Bool :=
  match e.cause with
  | .malformedDeclaration _ => true
  | _ => false

end SyntaxError

end LineScript
