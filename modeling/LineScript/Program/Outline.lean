import LineScript.Scope.Listing
import LineScript.Statement

/-!
# Outline of a program

The tree of a program as indented lines. Every node is given the indentation of
its first line, and gives its parts an indentation of their own: most parts stand
deeper, and a node that only wraps another passes its own indentation on.
-/

namespace LineScript

abbrev Outline := Except Fault String

/-- The indentation of the parts of a node. -/
def deeper (indent : String) : String :=
  indent ++ "  "

mutual

def NumExpr.outline (arena : Arena) (indent : String) : NumExpr → Outline
  | .single term => do
    let first ← term.outline arena (deeper indent)
    return indent ++ "NumExpression" ++ "\n" ++ first
  | .chain term op rest => do
    let inner := deeper indent
    let first ← term.outline arena inner
    let later ← rest.outline arena inner
    return indent ++ "NumExpression" ++ "\n" ++ first ++ "\n" ++ (inner ++ op.sign) ++ "\n" ++ later

def Term.outline (arena : Arena) (indent : String) : Term → Outline
  | .single factor => do
    let first ← factor.outline arena (deeper indent)
    return indent ++ "Term" ++ "\n" ++ first
  | .chain factor op rest => do
    let inner := deeper indent
    let first ← factor.outline arena inner
    let later ← rest.outline arena inner
    return indent ++ "Term" ++ "\n" ++ first ++ "\n" ++ (inner ++ op.sign) ++ "\n" ++ later

def Factor.outline (arena : Arena) (indent : String) : Factor → Outline
  | .literal n =>
    return indent ++ "Factor" ++ "\n" ++ (deeper indent ++ s!"Signed number: '{n.text}'")
  | .paren expression => do
    let child ← expression.outline arena (deeper indent)
    return indent ++ "Factor" ++ "\n" ++ child
  | .negate factor => do
    let inner := deeper indent
    let child ← factor.outline arena inner
    return indent ++ "Factor" ++ "\n" ++ (inner ++ "-") ++ "\n" ++ child
  | .reference ref => do
    let symbol ← arena.symbol ref.symbol
    return indent ++ "Factor" ++ "\n" ++ (deeper indent ++ symbol.describe)

end

def StringOperand.outline (arena : Arena) (indent : String) : StringOperand → Outline
  | .literal text => return indent ++ s!"String: '{text}'"
  | .reference ref => do
    let symbol ← arena.symbol ref.symbol
    return indent ++ symbol.describe

def StringExpr.outline (arena : Arena) (indent : String) : StringExpr → Outline
  | .single operand => do
    let first ← operand.outline arena (deeper indent)
    return indent ++ "StringExpression" ++ "\n" ++ first
  | .chain operand rest => do
    let inner := deeper indent
    let first ← operand.outline arena inner
    let later ← rest.outline arena inner
    return indent ++ "StringExpression" ++ "\n" ++ first ++ "\n" ++ (inner ++ "+") ++ "\n" ++ later

def Expr.outline (arena : Arena) (indent : String) : Expr → Outline
  | .number e => e.outline arena indent
  | .string e => e.outline arena indent

namespace Statement

/-- A heading with the printed expression below it, if there is one. -/
def outlinePrint (arena : Arena) (indent : String) (heading : String) : Option Expr → Outline
  | none => return indent ++ heading
  | some e => do
    let child ← e.outline arena (deeper indent)
    return indent ++ heading ++ "\n" ++ child

/-- A symbol behind a heading, and below it a sign and a value. -/
def outlineStore (arena : Arena) (indent : String) (heading : String) (symbol : SymbolId)
    (sign : String) (value : Option Expr) : Outline := do
  let inner := deeper indent
  let target := indent ++ (heading ++ (← arena.symbol symbol).describe)
  match value with
  | none => return target
  | some e =>
    let child ← e.outline arena inner
    return target ++ "\n" ++ (inner ++ sign) ++ "\n" ++ child

mutual

def outline (arena : Arena) (indent : String) : Statement → Outline
  | .null => return indent ++ "NullStatement"
  | .declare _ _ symbol _ initial => outlineStore arena indent "VarStatement : " symbol "=" initial
  | .assign _ _ symbol compound e =>
    outlineStore arena indent "AssignStatement : " symbol (if compound then "+=" else "=") (some e)
  | .print _ newline payload =>
    outlinePrint arena indent (if newline then "PrintlnStatement" else "PrintStatement") payload
  | .block _ _ body =>
    let inner := deeper indent
    outlineAll arena (deeper inner) (indent ++ "Block" ++ "\n" ++ (inner ++ "Statements")) body

/-- Writes statements below a text, one after the other. -/
def outlineAll (arena : Arena) (indent : String) (above : String) : List Statement → Outline
  | [] => return above
  | statement :: rest => do
    let next ← statement.outline arena indent
    outlineAll arena indent (above ++ "\n" ++ next) rest

end

end Statement

def Block.outline (arena : Arena) (indent : String) (b : Block) : Outline :=
  (Statement.block b.position b.table b.body).outline arena indent

/-- The outline behind an indentation, without a line end at its end. -/
def Program.outline (p : Program) (indent : String) : Outline := do
  let root ← p.root.outline p.arena (deeper indent)
  return indent ++ "Program" ++ "\n" ++ root

end LineScript
