import LineScript.Position

/-!
# Tokens

A token is a piece of a source line together with its kind and position. Line
ends and the end of the whole input are tokens too, so that a stream of tokens
holds all that the grammar speaks about.
-/

namespace LineScript

/-- The reserved words. Three of them have no use yet and start no statement. -/
inductive Keyword where
  | println
  | print
  | var
  | string
  | number
  | forWord
  | ifWord
  | elseWord
  deriving DecidableEq, Repr

namespace Keyword

def all : List Keyword :=
  [.println, .print, .var, .string, .number, .forWord, .ifWord, .elseWord]

def spelling : Keyword → String
  | .println => "println"
  | .print => "print"
  | .var => "var"
  | .string => "string"
  | .number => "number"
  | .forWord => "for"
  | .ifWord => "if"
  | .elseWord => "else"

end Keyword

inductive TokenKind where
  | identifier
  | keyword (word : Keyword)
  | integer
  | float
  | string
  | percent
  | dash
  | plus
  | plusEquals
  | doublePlus
  | star
  | slash
  | equals
  | leftBrace
  | rightBrace
  | leftParen
  | rightParen
  | lessEquals
  | less
  | greaterEquals
  | greater
  | doubleEquals
  | bang
  | bangEquals
  | period
  | hash
  | newline
  | endOfInput
  deriving DecidableEq, Repr

namespace TokenKind

/-- The kind's name in messages. -/
def name : TokenKind → String
  | .identifier => "Identifier"
  | .keyword .println => "Println"
  | .keyword .print => "Print"
  | .keyword .var => "Var"
  | .keyword .string => "String Type"
  | .keyword .number => "Number Type"
  | .keyword .forWord => "For"
  | .keyword .ifWord => "If"
  | .keyword .elseWord => "Else"
  | .integer => "Integer"
  | .float => "Float"
  | .string => "String"
  | .percent => "Percent"
  | .dash => "Dash"
  | .plus => "Plus"
  | .plusEquals => "Plus Equals"
  | .doublePlus => "Double Plus"
  | .star => "Mult"
  | .slash => "Div"
  | .equals => "Equals"
  | .leftBrace => "Left Curly Brace"
  | .rightBrace => "Right Curly Brace"
  | .leftParen => "Left Paren"
  | .rightParen => "Right Paren"
  | .lessEquals => "Less Than or Equals"
  | .less => "Less Than"
  | .greaterEquals => "Greater Than or Equals"
  | .greater => "Greater Than"
  | .doubleEquals => "Double Equals"
  | .bang => "Not"
  | .bangEquals => "Not Equals"
  | .period => "Period"
  | .hash => "Hash"
  | .newline => "Newline"
  | .endOfInput => "End of input"

end TokenKind

structure Token where
  kind : TokenKind
  literal : String
  position : Position
  deriving DecidableEq, Repr

namespace Token

/-- The token as messages quote it: by its text, or by its name if its text
cannot be seen. -/
def describe (token : Token) : String :=
  match token.kind with
  | .newline | .endOfInput => token.kind.name
  | _ => token.literal

/-- The token that stands for the end of input at this position. -/
def endAt (position : Position) : Token :=
  { kind := .endOfInput, literal := "", position }

end Token

end LineScript
