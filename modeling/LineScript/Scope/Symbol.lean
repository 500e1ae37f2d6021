import LineScript.Text.Blank
import LineScript.Value

/-!
# Symbols

A symbol is a declared variable: its name, its kind and the value it holds.
-/

namespace LineScript

structure Symbol where
  name : String
  kind : Kind
  value : Value
  deriving DecidableEq, Repr

namespace Symbol

/-- A variable in which nothing was stored yet. -/
def declared (name : String) (kind : Kind) : Symbol :=
  { name, kind, value := kind.initial }

def same (a b : Symbol) : Bool :=
  a.name = b.name && a.kind = b.kind && a.value.same b.value

/-- Fills a text up with spaces to the given number of characters. -/
def pad (width : Nat) (text : String) : String :=
  text ++ String.ofList (List.replicate (width - text.length) ' ')

/-- One line about the symbol: name and kind in columns, then the value in quotes
unless its text is empty. -/
def describe (s : Symbol) : String :=
  let line := "Symbol: " ++ pad 20 s.name ++ "  " ++ pad 12 s.kind.name
  let value := s.value.text
  if value.isEmpty then String.ofList (Text.trimEnd line.toList)
  else line ++ " '" ++ value ++ "'"

end Symbol

end LineScript
