import LineScript.Number

/-!
# Values and their kinds

A variable has a kind for good and holds values of that kind: numbers or strings.
-/

namespace LineScript

inductive Kind where
  | number
  | string
  deriving DecidableEq, Repr

namespace Kind

/-- The type word of the language for this kind. -/
def name : Kind → String
  | .number => "number"
  | .string => "string"

end Kind

inductive Value where
  | number (n : Number)
  | string (text : String)
  deriving DecidableEq, Repr

namespace Value

def kind : Value → Kind
  | .number _ => .number
  | .string _ => .string

/-- The value as it is printed; a string has no quotes around it. -/
def text : Value → String
  | .number n => n.text
  | .string text => text

def same : Value → Value → Bool
  | .number a, .number b => a.same b
  | .string a, .string b => a = b
  | _, _ => false

end Value

/-- What a variable of this kind holds before anything is stored in it. -/
def Kind.initial : Kind → Value
  | .number => .number (.integer 0)
  | .string => .string ""

end LineScript
