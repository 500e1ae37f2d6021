import LineScript.Expr.Reader

/-!
# Going on after an error

A statement that fails is given up as far as the end of its line. A malformed
declaration costs the rest of its block: its name would be unknown at every use.
-/

namespace LineScript.Recovery

/-- A nested block that the input ended in. -/
def unclosed (position : Position) : SyntaxError :=
  { position, cause := .missingClosingBrace }

/-- Drops the rest of a failed statement: up to and including the next line end,
or up to the end of input or, in a nested block, a closing brace. -/
def resync (nested : Bool) : List Token → List Token
  | [] => []
  | token :: rest =>
    match token.kind with
    | .endOfInput => token :: rest
    | .rightBrace => if nested then token :: rest else resync nested rest
    | .newline => rest
    | _ => resync nested rest

/-- Drops the rest of a block. A nested block is dropped up to and including the
brace that closes it, where `depth` inner blocks are open; the input may end
before that brace. At the top level everything up to the end of input is dropped. -/
def skipBlock (stop : Position) (nested : Bool) (depth : Nat) :
    List Token → Option SyntaxError × List Token
  | [] => (if nested then some (unclosed stop) else none, [])
  | token :: rest =>
    match token.kind with
    | .endOfInput => (if nested then some (unclosed token.position) else none, rest)
    | .leftBrace => skipBlock stop nested (depth + 1) rest
    | .rightBrace =>
      if nested && depth = 0 then (none, rest) else skipBlock stop nested (depth - 1) rest
    | _ => skipBlock stop nested depth rest

theorem resync_suffix (nested : Bool) (tokens : List Token) : resync nested tokens <:+ tokens := by
  induction tokens with
  | nil => exact List.suffix_rfl
  | cons token rest ih =>
    have drop : resync nested rest <:+ token :: rest := ih.trans (List.suffix_cons token rest)
    simp only [resync]
    split
    · exact List.suffix_rfl
    · split
      · exact List.suffix_rfl
      · exact drop
    · exact List.suffix_cons token rest
    · exact drop

theorem skipBlock_suffix (stop : Position) (nested : Bool) (depth : Nat) (tokens : List Token) :
    (skipBlock stop nested depth tokens).2 <:+ tokens := by
  induction tokens generalizing depth with
  | nil => exact List.suffix_rfl
  | cons token rest ih =>
    have drop (d : Nat) : (skipBlock stop nested d rest).2 <:+ token :: rest :=
      (ih d).trans (List.suffix_cons token rest)
    simp only [skipBlock]
    split
    · exact List.suffix_cons token rest
    · exact drop _
    · split
      · exact List.suffix_cons token rest
      · exact drop _
    · exact drop _

end LineScript.Recovery
