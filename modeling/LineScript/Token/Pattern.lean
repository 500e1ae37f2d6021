/-!
# Patterns

A pattern says which texts are complete tokens of one kind, and which texts can
still grow into one. The second notion lets a scanner stop as soon as no longer
text can be a token.
-/

namespace LineScript

inductive Pattern where
  /-- One fixed spelling. -/
  | fixed (spelling : List Char)
  /-- An ASCII letter, then ASCII letters, digits and underscores. -/
  | identifier
  /-- One or more ASCII digits. -/
  | integer
  /-- An integer, a point, and any number of digits. -/
  | float
  /-- Two quotes with no quote between them. -/
  | quoted
  deriving DecidableEq, Repr

namespace Pattern

/-- Whether the text is a complete token of this pattern. -/
def complete : Pattern → List Char → Bool
  | .fixed spelling, text => text = spelling
  | .identifier, [] => false
  | .identifier, c :: rest => c.isAlpha && rest.all fun d => d.isAlphanum || d = '_'
  | .integer, text => !text.isEmpty && text.all Char.isDigit
  | .float, text =>
    match text.dropWhile (· != '.') with
    | [] => false
    | _ :: fraction =>
      let whole := text.takeWhile (· != '.')
      !whole.isEmpty && whole.all Char.isDigit && fraction.all Char.isDigit
  | .quoted, '"' :: rest => rest.dropWhile (· != '"') = ['"']
  | .quoted, _ => false

/-- Whether the text is a complete token of this pattern or can become one by
adding characters at its end. -/
def viable : Pattern → List Char → Bool
  | .fixed spelling, text => text.isPrefixOf spelling
  | .identifier, text => complete .identifier text
  | .integer, text => complete .integer text
  | .float, text => if text.contains '.' then complete .float text else complete .integer text
  | .quoted, '"' :: rest =>
    match rest.dropWhile (· != '"') with
    | [] => true
    | _ :: later => later.isEmpty
  | .quoted, _ => false

end Pattern

end LineScript
