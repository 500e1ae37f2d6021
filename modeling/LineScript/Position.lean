/-!
# Positions

Lines and columns of a source text. Both count from one, and columns count
characters.
-/

namespace LineScript

structure Position where
  line : Nat
  column : Nat
  deriving DecidableEq, Repr

namespace Position

/-- The position of the first character of a text. -/
def start : Position :=
  { line := 1, column := 1 }

/-- How a message begins that is about this position. -/
def heading (p : Position) : String :=
  s!"Error on line {p.line}, column {p.column}: "

end Position

end LineScript
