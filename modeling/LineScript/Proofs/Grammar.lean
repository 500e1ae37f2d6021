import LineScript.Number
import LineScript.Proofs.Scope.Frames
import LineScript.Token

/-!
# The grammar

Which lists of tokens are programs, said without a reader. Numeric expressions
have three levels, and both kinds of expressions are chains whose rest is again an
expression. A name is judged by the kind that the frames around it give it: a
declaration puts its name into the top frame behind its own first value, and a
block starts with an empty frame that nobody sees behind the closing brace.

A body ends where its list ends. Whoever uses it says what follows: a closing
brace, or the end of input.
-/

namespace LineScript.Grammar

/-- The largest integer, one less than the 63rd power of two. -/
def largest : Nat := 9223372036854775807

/-- The token is an integer literal of this value. -/
def Literal (token : Token) (value : Nat) : Prop :=
  token.kind = .integer ∧ Number.digits? token.literal.toList = some value

section expressions

variable (kinds : String → Option Kind)

/-- The token names a variable of this kind. -/
def Variable (kind : Kind) (token : Token) : Prop :=
  token.kind = .identifier ∧ kinds token.literal = some kind

mutual

/-- A term, or a term, `+` or `-`, and a numeric expression. -/
inductive Num : List Token → Prop where
  | single {ts : List Token} (term : Term ts) : Num ts
  | chain {ts us : List Token} {op : Token} (term : Term ts)
      (hop : op.kind = .plus ∨ op.kind = .dash) (rest : Num us) : Num (ts ++ op :: us)

/-- A factor, or a factor, `*` or `/`, and a term. -/
inductive Term : List Token → Prop where
  | single {ts : List Token} (factor : Factor ts) : Term ts
  | chain {ts us : List Token} {op : Token} (factor : Factor ts)
      (hop : op.kind = .star ∨ op.kind = .slash) (rest : Term us) : Term (ts ++ op :: us)

/-- A literal, a negation, a numeric expression in parentheses, or a variable. The
smallest integer has no literal of its own and is written with its sign. -/
inductive Factor : List Token → Prop where
  | integer {token : Token} {value : Nat} (hliteral : Literal token value)
      (hvalue : value ≤ largest) : Factor [token]
  | float {token : Token} (hkind : token.kind = .float) : Factor [token]
  | signed {sign token : Token} {value : Nat} (hsign : sign.kind = .dash)
      (hliteral : Literal token value) (hvalue : value ≤ largest + 1) : Factor [sign, token]
  | negate {sign : Token} {ts : List Token} (hsign : sign.kind = .dash) (inner : Factor ts) :
      Factor (sign :: ts)
  | paren {opening closing : Token} {ts : List Token} (hopening : opening.kind = .leftParen)
      (inner : Num ts) (hclosing : closing.kind = .rightParen) :
      Factor (opening :: (ts ++ [closing]))
  | reference {token : Token} (hvar : Variable kinds .number token) : Factor [token]

end

/-- A quoted text or a variable of the kind string. -/
def Operand (token : Token) : Prop :=
  token.kind = .string ∨ Variable kinds .string token

/-- An operand, or an operand, `+` and a string expression. -/
inductive Str : List Token → Prop where
  | single {token : Token} (operand : Operand kinds token) : Str [token]
  | chain {token op : Token} {ts : List Token} (operand : Operand kinds token)
      (hop : op.kind = .plus) (rest : Str ts) : Str (token :: op :: ts)

/-- An expression of the given kind. -/
inductive Expr : Kind → List Token → Prop where
  | number {ts : List Token} (e : Num kinds ts) : Expr .number ts
  | string {ts : List Token} (e : Str kinds ts) : Expr .string ts

end expressions

/-- The word that declares a variable of the kind. -/
def typeWord : Kind → TokenKind
  | .number => .keyword .number
  | .string => .keyword .string

/-- Behind a statement its body ends, the line ends, or a comment begins. -/
def Boundary : List Token → Prop
  | [] => True
  | token :: _ => token.kind = .newline ∨ token.kind = .hash

mutual

/-- The tokens are a statement where the first frames are in scope. The second
frames are in scope behind it. -/
inductive Statement : Frames Kind → List Token → Frames Kind → Prop where
  | declare {env : Frames Kind} {keyword name type : Token} {kind : Kind}
      (hkeyword : keyword.kind = .keyword .var) (hname : name.kind = .identifier)
      (htype : type.kind = typeWord kind) (hfree : env.top? name.literal = none) :
      Statement env [keyword, name, type] (env.bind name.literal kind)
  | declareValue {env : Frames Kind} {keyword name type equals : Token} {kind : Kind}
      {ts : List Token} (hkeyword : keyword.kind = .keyword .var)
      (hname : name.kind = .identifier) (htype : type.kind = typeWord kind)
      (hfree : env.top? name.literal = none) (hequals : equals.kind = .equals)
      (value : Expr env.lookup kind ts) :
      Statement env (keyword :: name :: type :: equals :: ts) (env.bind name.literal kind)
  | assign {env : Frames Kind} {name op : Token} {kind : Kind} {ts : List Token}
      (hname : Variable env.lookup kind name)
      (hop : op.kind = .equals ∨ op.kind = .plusEquals) (value : Expr env.lookup kind ts) :
      Statement env (name :: op :: ts) env
  | print {env : Frames Kind} {keyword : Token}
      (hkeyword : keyword.kind = .keyword .print ∨ keyword.kind = .keyword .println) :
      Statement env [keyword] env
  | printValue {env : Frames Kind} {keyword : Token} {kind : Kind} {ts : List Token}
      (hkeyword : keyword.kind = .keyword .print ∨ keyword.kind = .keyword .println)
      (value : Expr env.lookup kind ts) : Statement env (keyword :: ts) env
  | block {env : Frames Kind} {opening closing : Token} {ts : List Token}
      (hopening : opening.kind = .leftBrace) (body : Body ([] :: env) ts)
      (hclosing : closing.kind = .rightBrace) :
      Statement env (opening :: (ts ++ [closing])) env

/-- The tokens are line ends, comment signs and statements, where the frames are in
scope at the beginning. -/
inductive Body : Frames Kind → List Token → Prop where
  | empty {env : Frames Kind} : Body env []
  | blank {env : Frames Kind} {token : Token} {ts : List Token}
      (hkind : token.kind = .newline ∨ token.kind = .hash) (rest : Body env ts) :
      Body env (token :: ts)
  | statement {env env' : Frames Kind} {ts us : List Token} (first : Statement env ts env')
      (hboundary : Boundary us) (rest : Body env' us) : Body env (ts ++ us)

end

/-- The tokens are a whole program: a body with no name in scope, and the end of
input. -/
def Source (tokens : List Token) : Prop :=
  ∃ body stop, tokens = body ++ [stop] ∧ stop.kind = .endOfInput ∧ Body [[]] body

end LineScript.Grammar
