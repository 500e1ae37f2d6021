import LineScript.Proofs.Layout
import LineScript.Proofs.Reading.Renumbering

/-!
# The numbers of lines

How a line is cut into tokens does not hang on its number. Lines that get other numbers
have the same tokens and the same lexical errors, with the new numbers in them
(`Cursor.tokensFrom_renumber`, `Cursor.errorsFrom_renumber`).
-/

namespace LineScript

section renumber

variable (g : Nat → Nat)

def LexicalError.renumber (e : LexicalError) : LexicalError :=
  { e with position := e.position.renumber g }

def RuntimeError.renumber (e : RuntimeError) : RuntimeError :=
  { e with position := e.position.renumber g }

def Diagnostic.renumber : Diagnostic → Diagnostic
  | .lexical e => .lexical (e.renumber g)
  | .grammar e => .grammar (e.renumber g)
  | .runtime e => .runtime (e.renumber g)

end renumber

namespace Scan

/-- Only columns are counted while a line is cut. -/
theorem scan_renumber (g : Nat → Nat) (position : Position) (text : List Char) :
    scan (position.renumber g) text =
      ((scan position text).map (List.map (Token.renumber g))).mapError
        (LexicalError.renumber g) := by
  induction position, text using scan_induction with
  | nil position =>
    rw [scan_nil, scan_nil]
    rfl
  | blank position c text hblank ih =>
    rw [scan_blank hblank, scan_blank hblank]
    exact ih
  | error position c text cause hblank hm =>
    rw [scan_of_error hblank hm, scan_of_error hblank hm]
    rfl
  | munch position c text m hblank hm ih =>
    simp only [Position.renumber] at ih
    rw [scan_of_munch hblank hm, scan_of_munch hblank hm]
    split
    · rfl
    · simp only [Position.renumber, ih]
      cases scan { position with column := position.column + m.literal.length } m.rest <;> rfl

end Scan

namespace Cursor

variable {g : Nat → Nat} {line line' : Nat} {lines : List String}

theorem ofLine_renumber (g : Nat → Nat) (line : Nat) (text : String) :
    Token.ofLine (g line) text =
      ((Token.ofLine line text).map (List.map (Token.renumber g))).mapError
        (LexicalError.renumber g) :=
  Scan.scan_renumber g { line, column := 1 } text.toList

theorem lineTokens_renumber (g : Nat → Nat) (line : Nat) (text : String) :
    lineTokens (g line) text = (lineTokens line text).map (Token.renumber g) := by
  have hscan := ofLine_renumber g line text
  cases h : Token.ofLine line text with
  | error e =>
    rw [h] at hscan
    rw [lineTokens_of_error h, lineTokens_of_error hscan]
    rfl
  | ok tokens =>
    rw [h] at hscan
    rw [lineTokens_of_ok h, lineTokens_of_ok hscan, List.map_append]
    rfl

theorem lineError?_renumber (g : Nat → Nat) (line : Nat) (text : String) :
    lineError? (g line) text = (lineError? line text).map (LexicalError.renumber g) := by
  unfold lineError?
  rw [ofLine_renumber]
  cases Token.ofLine line text <;> rfl

/-- Lines that are numbered from another line on have the same tokens. -/
theorem tokensFrom_renumber (h : ∀ k < lines.length, g (line + k) = line' + k) :
    tokensFrom line' lines = (tokensFrom line lines).map (Token.renumber g) := by
  induction lines generalizing line line' with
  | nil => rfl
  | cons text lines ih =>
    have hfirst : g line = line' := h 0 (Nat.zero_lt_succ _)
    have hlater : ∀ k < lines.length, g (line + 1 + k) = line' + 1 + k := by
      intro k hk
      rw [Nat.add_right_comm, Nat.add_right_comm line', Nat.add_assoc, Nat.add_assoc]
      exact h (k + 1) (Nat.succ_lt_succ hk)
    rw [tokensFrom_cons, tokensFrom_cons, List.map_append, ih hlater, ← lineTokens_renumber, hfirst]

/-- Lines that are numbered from another line on have the same lexical errors. -/
theorem errorsFrom_renumber (h : ∀ k < lines.length, g (line + k) = line' + k) :
    errorsFrom line' lines = (errorsFrom line lines).map (LexicalError.renumber g) := by
  induction lines generalizing line line' with
  | nil => rfl
  | cons text lines ih =>
    have hfirst : g line = line' := h 0 (Nat.zero_lt_succ _)
    have hlater : ∀ k < lines.length, g (line + 1 + k) = line' + 1 + k := by
      intro k hk
      rw [Nat.add_right_comm, Nat.add_right_comm line', Nat.add_assoc, Nat.add_assoc]
      exact h (k + 1) (Nat.succ_lt_succ hk)
    rw [errorsFrom_cons, errorsFrom_cons, List.map_append, ih hlater, ← hfirst,
      lineError?_renumber, Option.toList_map]

end Cursor

end LineScript
