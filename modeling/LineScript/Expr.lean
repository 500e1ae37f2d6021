import LineScript.Scope.Arena
import LineScript.Token

/-!
# Expressions

Expressions keep the shape in which they are written: a chain of terms, each a
chain of factors. A chain groups to the right, so the part behind an operator is
the whole rest of the chain. Every use of a variable carries the symbol that its
name leads to.
-/

namespace LineScript

inductive Operator where
  | add
  | sub
  | mul
  | div
  deriving DecidableEq, Repr

namespace Operator

def sign : Operator → String
  | .add => "+"
  | .sub => "-"
  | .mul => "*"
  | .div => "/"

/-- The operator of a chain of terms that a token of this kind stands for. -/
def sum? : TokenKind → Option Operator
  | .plus => some .add
  | .dash => some .sub
  | _ => none

/-- The operator of a chain of factors that a token of this kind stands for. -/
def product? : TokenKind → Option Operator
  | .star => some .mul
  | .slash => some .div
  | _ => none

end Operator

/-- The use of a variable. -/
structure Reference where
  name : String
  symbol : SymbolId
  position : Position
  deriving DecidableEq, Repr

mutual

inductive NumExpr where
  | single (term : Term)
  | chain (term : Term) (op : Operator) (rest : NumExpr)
  deriving DecidableEq

inductive Term where
  | single (factor : Factor)
  | chain (factor : Factor) (op : Operator) (rest : Term)
  deriving DecidableEq

inductive Factor where
  | literal (n : Number)
  | paren (inner : NumExpr)
  | negate (inner : Factor)
  | reference (ref : Reference)
  deriving DecidableEq

end

inductive StringOperand where
  | literal (text : String)
  | reference (ref : Reference)
  deriving DecidableEq, Repr

inductive StringExpr where
  | single (operand : StringOperand)
  | chain (operand : StringOperand) (rest : StringExpr)
  deriving DecidableEq, Repr

inductive Expr where
  | number (e : NumExpr)
  | string (e : StringExpr)
  deriving DecidableEq

def Expr.kind : Expr → Kind
  | .number _ => .number
  | .string _ => .string

/-! ## Sameness

Two expressions are the same if they differ in nothing but literals of one value. -/

mutual

def NumExpr.same : NumExpr → NumExpr → Bool
  | .single s, .single t => s.same t
  | .chain s o x, .chain t p y => s.same t && o = p && x.same y
  | _, _ => false

def Term.same : Term → Term → Bool
  | .single f, .single g => f.same g
  | .chain f o x, .chain g p y => f.same g && o = p && x.same y
  | _, _ => false

def Factor.same : Factor → Factor → Bool
  | .literal m, .literal n => m.same n
  | .paren x, .paren y => x.same y
  | .negate f, .negate g => f.same g
  | .reference r, .reference q => r = q
  | _, _ => false

end

def Expr.same : Expr → Expr → Bool
  | .number x, .number y => x.same y
  | .string x, .string y => x = y
  | _, _ => false

end LineScript
