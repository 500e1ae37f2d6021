import LineScript.Text.Blank

/-!
# Source lines

A source text is cut at its line feeds and every piece loses its margins. A
carriage return in front of a line feed is a blank at the end of a piece, so it
needs no rule of its own, and one that stands elsewhere ends no line.
-/

namespace LineScript.Text

/-- The pieces that the line feeds of a text end. What follows the last line
feed is a piece of its own unless it is empty. -/
def pieces : List Char → List (List Char)
  | [] => []
  | c :: rest =>
    if c = '\n' then [] :: pieces rest
    else
      match pieces rest with
      | [] => [[c]]
      | piece :: later => (c :: piece) :: later

/-- The lines of a source text, each without the blanks around it. -/
def lines (source : String) : List String :=
  (pieces source.toList).map fun piece => String.ofList (trim piece)

end LineScript.Text
