import LineScript.Diagnostic.Lexical
import LineScript.Text.Blank
import LineScript.Token.Lexicon

/-!
# Scanning a line

A line is cut into tokens from the left. Blanks between tokens are dropped, every
token is the longest complete text at its place, and a comment sign ends the
line. The scan of a line ends because every token takes at least one character.
Reserved words are identifiers until the whole line is cut.
-/

namespace LineScript.Scan

/-- A complete token at the front of a text, and the text behind it. -/
structure Munch where
  kind : TokenKind
  literal : List Char
  rest : List Char
  deriving DecidableEq, Repr

/-- Grows the text `taken` by the characters of `rest` as long as it is the start
of some token. The longest complete token on the way is the answer; `best` is
the one found so far. -/
def grow (taken : List Char) (best : Option Munch) :
    (rest : List Char) → Except LexicalError.Cause Munch
  | [] =>
    match best with
    | some found => .ok found
    | none => .error (.unterminated (String.ofList taken))
  | c :: rest =>
    let longer := taken ++ [c]
    if Lexicon.viable longer then
      match Lexicon.bestMatch? longer with
      | some d => grow longer (some { kind := d.kind, literal := longer, rest }) rest
      | none => grow longer best rest
    else
      match best with
      | some found => .ok found
      | none => .error (.unrecognized (String.ofList longer))

/-- The longest complete token at the front of a text. -/
def munch (text : List Char) : Except LexicalError.Cause Munch :=
  grow [] none text

theorem length_rest_of_grow {taken rest : List Char} {best : Option Munch} {n : Nat} {m : Munch}
    (hbest : ∀ b, best = some b → b.rest.length < n) (hrest : rest.length ≤ n)
    (h : grow taken best rest = .ok m) : m.rest.length < n := by
  induction rest generalizing taken best with
  | nil =>
    cases best with
    | none => simp [grow] at h
    | some b =>
      simp only [grow, Except.ok.injEq] at h
      exact h ▸ hbest b rfl
  | cons c rest ih =>
    simp only [List.length_cons] at hrest
    simp only [grow] at h
    split at h
    · split at h
      · refine ih ?_ (by omega) h
        intro b hb
        cases hb
        exact hrest
      · exact ih hbest (by omega) h
    · cases best with
      | none => simp at h
      | some b =>
        simp only [Except.ok.injEq] at h
        exact h ▸ hbest b rfl

/-- A token takes at least one character. -/
theorem length_rest_of_munch {text : List Char} {m : Munch} (h : munch text = .ok m) :
    m.rest.length < text.length := by
  refine length_rest_of_grow ?_ (Nat.le_refl _) h
  intro b hb
  cases hb

/-- Cuts the text that stands at the given position of a line. -/
def cut (position : Position) (text : List Char) : Except LexicalError (List Token) :=
  match text with
  | [] => .ok []
  | c :: later =>
    if Text.isBlank c then cut { position with column := position.column + 1 } later
    else
      match _h : munch (c :: later) with
      | .error cause => .error { position, cause }
      | .ok m =>
        let token : Token := { kind := m.kind, literal := String.ofList m.literal, position }
        if m.kind = .hash then .ok [token]
        else
          let next := { position with column := position.column + m.literal.length }
          match cut next m.rest with
          | .error e => .error e
          | .ok tokens => .ok (token :: tokens)
termination_by text.length
decreasing_by
  · simp
  · exact length_rest_of_munch _h

end LineScript.Scan

namespace LineScript

/-- The token with the kind that it has if the recogniser finds the reserved words. -/
def Token.reclassify (words : Keyword.Recogniser) (token : Token) : Token :=
  { token with kind := Lexicon.reclassify words token.kind token.literal }

/-- The tokens of the text that stands at the given position of a line, with the
reserved words that the recogniser finds. -/
def Scan.scanBy (words : Keyword.Recogniser) (position : Position) (text : List Char) :
    Except LexicalError (List Token) :=
  (cut position text).map (List.map (Token.reclassify words))

/-- The tokens of the text if the longest reserved words are found. -/
def Scan.scan : Position → List Char → Except LexicalError (List Token) :=
  scanBy .longest

/-- The tokens of a whole line, with the reserved words that the recogniser finds. -/
def Token.ofLineBy (words : Keyword.Recogniser) (line : Nat) (text : String) :
    Except LexicalError (List Token) :=
  Scan.scanBy words { line, column := 1 } text.toList

/-- The tokens of a whole line. -/
def Token.ofLine (line : Nat) (text : String) : Except LexicalError (List Token) :=
  Scan.scan { line, column := 1 } text.toList

end LineScript
