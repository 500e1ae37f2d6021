import LineScript.Token

/-!
# Recognising reserved words

A recogniser goes through a text from the left and cuts it into pieces, some of
which are reserved words. How it does that is its own matter. A text is a reserved
word if the recogniser takes all of it as one piece.
-/

namespace LineScript.Keyword

/-- A piece of a text as a recogniser cuts it. -/
structure Piece where
  /-- The word that the piece is. Other pieces are errors. -/
  word : Option Keyword
  /-- How many bytes of the text end with the piece. -/
  stop : Nat
  deriving DecidableEq, Repr

structure Recogniser where
  /-- The next piece of a text of which so many bytes were taken, or nothing at
  its end. -/
  next : (text : String) → (start : Nat) → Option Piece

namespace Recogniser

/-- The reserved word that the text is. Its first piece has to be a word that ends
where the text ends, and no piece may follow. -/
def lookup (r : Recogniser) (text : String) : Option Keyword := do
  let piece ← r.next text 0
  let word ← piece.word
  if piece.stop ≠ text.utf8ByteSize || (r.next text piece.stop).isSome then none
  else some word

end Recogniser

/-! ## Longest match -/

/-- What is left of a text behind so many bytes. -/
def behind : (start : Nat) → List Char → List Char
  | 0, text => text
  | _ + 1, [] => []
  | n + 1, c :: text => behind (n + 1 - c.utf8Size) text

/-- The word, if it stands at the front of the text and is longer than the best
word so far. -/
def better (text : List Char) (best : Option Keyword) (word : Keyword) : Option Keyword :=
  if word.spelling.toList.isPrefixOf text &&
      best.all (fun b => b.spelling.length < word.spelling.length) then some word
  else best

/-- The longest reserved word at the front of a text. -/
def longest? (text : List Char) : Option Keyword :=
  all.foldl (better text) none

/-- Takes the longest reserved word at each place, and one character where there
is none. -/
def Recogniser.longest : Recogniser where
  next text start :=
    match behind start text.toList with
    | [] => none
    | c :: rest =>
      match longest? (c :: rest) with
      | some word => some { word := some word, stop := start + word.spelling.utf8ByteSize }
      | none => some { word := none, stop := start + c.utf8Size }

end LineScript.Keyword
