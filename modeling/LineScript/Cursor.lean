import LineScript.Token.Scan

/-!
# Token cursors

A cursor is a place in a list of tokens that an end-of-input token closes. It may
move past that end, where the closing token is seen again and again.
-/

namespace LineScript

structure Cursor where
  /-- The tokens in front of the closing one. -/
  tokens : List Token
  /-- The end of input. -/
  closing : Token
  /-- How many tokens were taken. -/
  position : Nat
  deriving DecidableEq, Repr

namespace Cursor

/-- A cursor in front of the tokens. If their last one is no end of input, one is
added at its position. -/
def ofTokens (tokens : List Token) : Cursor :=
  match tokens.getLast? with
  | none => { tokens := [], closing := Token.endAt .start, position := 0 }
  | some last =>
    if last.kind = .endOfInput then
      { tokens := tokens.dropLast, closing := last, position := 0 }
    else
      { tokens, closing := Token.endAt last.position, position := 0 }

/-- The position behind the last character of a line. -/
def lineEnd (line : Nat) (text : String) : Position :=
  { line, column := text.length + 1 }

/-- The tokens of a line and the line end behind them. A line that cannot be
scanned has only its end. -/
def lineTokens (line : Nat) (text : String) : List Token :=
  let newline := { kind := .newline, literal := "\n", position := lineEnd line text }
  match Token.ofLine line text with
  | .ok tokens => tokens ++ [newline]
  | .error _ => [newline]

/-- The lexical error of a line, if it has one. -/
def lineError? (line : Nat) (text : String) : Option LexicalError :=
  match Token.ofLine line text with
  | .ok _ => none
  | .error e => some e

/-- A cursor in front of the tokens of all lines, and the lexical errors. -/
def ofLines (lines : List String) : Cursor × List LexicalError :=
  let numbered := lines.zipIdx 1
  let stop := (numbered.getLast?.map fun (text, line) => lineEnd line text).getD .start
  ({ tokens := numbered.flatMap fun (text, line) => lineTokens line text
     closing := Token.endAt stop
     position := 0 },
    numbered.filterMap fun (text, line) => lineError? line text)

/-- The tokens that were not taken yet, without the closing one. -/
def ahead (c : Cursor) : List Token :=
  c.tokens.drop c.position

def peek (c : Cursor) : Token :=
  c.tokens[c.position]?.getD c.closing

def pop (c : Cursor) : Token × Cursor :=
  (c.peek, { c with position := c.position + 1 })

/-- Gives the last token back. In front of the first token nothing happens. -/
def pushBack (c : Cursor) : Cursor :=
  { c with position := c.position - 1 }

/-- Takes the next token if it is of this kind. -/
def swallow (kind : TokenKind) (c : Cursor) : Bool × Cursor :=
  if c.peek.kind = kind then (true, c.pop.2) else (false, c)

def atEnd (c : Cursor) : Bool :=
  c.peek.kind = .endOfInput

end Cursor

end LineScript
