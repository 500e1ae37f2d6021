import LineScript.Token.Keyword
import LineScript.Token.Pattern

/-!
# The lexicon

The token kinds that a scanner tells apart by pattern, with a priority for the
case that several patterns fit one text. Reserved words are no patterns of their
own: they are identifiers first.
-/

namespace LineScript

/-- A token kind with the pattern of its texts. -/
structure Definition where
  kind : TokenKind
  pattern : Pattern
  priority : Nat
  deriving DecidableEq, Repr

namespace Lexicon

/-- Every kind that has a pattern. Fixed spellings outrank the open classes, and
two characters outrank one. -/
def definitions : List Definition :=
  [⟨.identifier, .identifier, 1⟩,
    ⟨.integer, .integer, 1⟩,
    ⟨.string, .quoted, 1⟩,
    ⟨.float, .float, 2⟩,
    ⟨.percent, .fixed ['%'], 2⟩,
    ⟨.dash, .fixed ['-'], 2⟩,
    ⟨.plus, .fixed ['+'], 2⟩,
    ⟨.plusEquals, .fixed ['+', '='], 3⟩,
    ⟨.doublePlus, .fixed ['+', '+'], 3⟩,
    ⟨.star, .fixed ['*'], 2⟩,
    ⟨.slash, .fixed ['/'], 2⟩,
    ⟨.equals, .fixed ['='], 2⟩,
    ⟨.leftBrace, .fixed ['{'], 2⟩,
    ⟨.rightBrace, .fixed ['}'], 2⟩,
    ⟨.leftParen, .fixed ['('], 2⟩,
    ⟨.rightParen, .fixed [')'], 2⟩,
    ⟨.lessEquals, .fixed ['<', '='], 3⟩,
    ⟨.less, .fixed ['<'], 2⟩,
    ⟨.greaterEquals, .fixed ['>', '='], 3⟩,
    ⟨.greater, .fixed ['>'], 2⟩,
    ⟨.doubleEquals, .fixed ['=', '='], 3⟩,
    ⟨.bang, .fixed ['!'], 2⟩,
    ⟨.bangEquals, .fixed ['!', '='], 3⟩,
    ⟨.period, .fixed ['.'], 2⟩,
    ⟨.hash, .fixed ['#'], 2⟩]

/-- Whether the text is the start of some token. -/
def viable (text : List Char) : Bool :=
  definitions.any fun d => d.pattern.viable text

/-- The later of two definitions unless the earlier has the greater priority. -/
def prefer (best : Option Definition) (d : Definition) : Option Definition :=
  match best with
  | none => some d
  | some b => if d.priority < b.priority then some b else some d

/-- The definition of the greatest priority for which the text is complete. -/
def bestMatch? (text : List Char) : Option Definition :=
  (definitions.filter fun d => d.pattern.complete text).foldl prefer none

/-- The kind of a scanned text: an identifier that is a reserved word becomes
that word. -/
def reclassify (words : Keyword.Recogniser) (kind : TokenKind) (literal : String) : TokenKind :=
  match kind, words.lookup literal with
  | .identifier, some word => .keyword word
  | kind, _ => kind

end Lexicon

end LineScript
