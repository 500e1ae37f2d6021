import LineScript.Expr

/-!
# Statements, blocks and programs

A program is a tree of statements together with the arena that holds its scopes.
Statements and blocks know the position of the token that they begin with.
-/

namespace LineScript

inductive Statement where
  /-- What is left of a statement that could not be read. It does nothing. -/
  | null
  /-- A new variable, possibly with a first value. -/
  | declare (position : Position) (name : String) (symbol : SymbolId) (kind : Kind)
      (initial : Option Expr)
  /-- A new value for a variable, which is added to the old one if `compound`. -/
  | assign (position : Position) (name : String) (symbol : SymbolId) (compound : Bool)
      (value : Expr)
  /-- Output of a value, of nothing, and of a line end if `newline`. -/
  | print (position : Position) (newline : Bool) (payload : Option Expr)
  /-- Statements with a scope of their own. -/
  | block (position : Position) (table : TableId) (body : List Statement)

structure Block where
  position : Position
  table : TableId
  body : List Statement

structure Program where
  root : Block
  arena : Arena

namespace Program

/-- The program without statements. Its root block has a scope like any other. -/
def empty : Program :=
  let (table, arena) := Arena.empty.openTable none
  { root := { position := .start, table, body := [] }, arena }

end Program

/-! ## Sameness

Two trees are the same if they differ in nothing but literals of one value. -/

namespace Statement

def sameExpr? : Option Expr → Option Expr → Bool
  | none, none => true
  | some x, some y => x.same y
  | _, _ => false

mutual

def same : Statement → Statement → Bool
  | .null, .null => true
  | .declare p n s k x, .declare q m t l y =>
    p = q && n = m && s = t && k = l && sameExpr? x y
  | .assign p n s c x, .assign q m t d y => p = q && n = m && s = t && c = d && x.same y
  | .print p l x, .print q m y => p = q && l = m && sameExpr? x y
  | .block p s x, .block q t y => p = q && s = t && sameAll x y
  | _, _ => false

def sameAll : List Statement → List Statement → Bool
  | [], [] => true
  | x :: xs, y :: ys => x.same y && sameAll xs ys
  | _, _ => false

end

end Statement

def Block.same (a b : Block) : Bool :=
  a.position = b.position && a.table = b.table && Statement.sameAll a.body b.body

def Program.same (a b : Program) : Bool :=
  a.root.same b.root && a.arena.same b.arena

end LineScript
