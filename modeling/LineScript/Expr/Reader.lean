import LineScript.Diagnostic.Grammar
import LineScript.Expr

/-!
# Reading expressions

A recursive descent over a list of tokens. A reader gives a tree or the error
that stopped it, and in both cases the tokens that it left, since what follows an
error is searched from there. Names are resolved and kinds are checked as soon as
a variable is met.

What a reader leaves is an end of what it was given. Its result carries that fact,
and together with the token that an operator or a parenthesis takes it is the
reason why reading ends.
-/

namespace LineScript

/-- What an expression is read against. -/
structure Context where
  /-- The meaning of the names in scope. -/
  resolve? : String → Option Arena.Binding
  /-- Where the input ends. -/
  stop : Position

namespace Context

/-- The token at the front, which is the end of input if no token is left. -/
def front (ctx : Context) : List Token → Token
  | [] => Token.endAt ctx.stop
  | token :: _ => token

end Context

theorem suffix_of_cons_suffix {token : Token} {rest before : List Token}
    (h : token :: rest <:+ before) : rest <:+ before :=
  (List.suffix_cons token rest).trans h

/-- The outcome of reading from the tokens `before`. -/
structure Reading (α : Type) (before : List Token) where
  outcome : Except SyntaxError α
  rest : List Token
  suffix : rest <:+ before

namespace Reading

variable {α β : Type} {before : List Token}

/-- Takes no token. -/
def stay (before : List Token) (outcome : Except SyntaxError α) : Reading α before :=
  { outcome, rest := before, suffix := List.suffix_rfl }

/-- A reading from later tokens, seen from an earlier place. -/
def within {later : List Token} (h : later <:+ before) (r : Reading α later) :
    Reading α before :=
  { outcome := r.outcome, rest := r.rest, suffix := r.suffix.trans h }

/-- A reading from the tokens behind the first one. -/
def behind {rest : List Token} (token : Token) (r : Reading α rest) : Reading α (token :: rest) :=
  r.within (List.suffix_cons token rest)

def map (f : α → β) (r : Reading α before) : Reading β before :=
  { outcome := r.outcome.map f, rest := r.rest, suffix := r.suffix }

end Reading

namespace SyntaxError

/-- Something else was allowed where this token stands. -/
def expected (what : Expectation) (found : Token) : SyntaxError :=
  { position := found.position, cause := .expectedToken what found.describe }

def undeclared (token : Token) : SyntaxError :=
  { position := token.position, cause := .undeclaredVariable token.literal }

def unclosedParen (found : Token) : SyntaxError :=
  { position := found.position, cause := .expectedClosingParen found.describe }

/-- A token that begins an expression of another kind than its place asks for. -/
def mismatch (expected actual : Kind) (found : Token) : SyntaxError :=
  { position := found.position, cause := .kindMismatch expected actual found.describe }

end SyntaxError

namespace Context

/-- The variable that a token names, if it is of the kind that is wanted. -/
def reference (ctx : Context) (kind : Kind) (token : Token) : Except SyntaxError Reference :=
  match ctx.resolve? token.literal with
  | none => .error (.undeclared token)
  | some binding =>
    if binding.kind = kind then
      .ok { name := token.literal, symbol := binding.symbol, position := token.position }
    else .error (.mismatch kind binding.kind token)

/-- The kind of the expression that a token begins, if it can begin one. -/
def kindOf? (ctx : Context) (token : Token) : Except SyntaxError (Option Kind) :=
  match token.kind with
  | .string => .ok (some .string)
  | .integer | .float | .leftParen | .dash => .ok (some .number)
  | .identifier =>
    match ctx.resolve? token.literal with
    | none => .error (.undeclared token)
    | some binding => .ok (some binding.kind)
  | _ => .ok none

end Context

/-! ## Literals -/

namespace Token

def isNumber (token : Token) : Bool :=
  token.kind = .integer || token.kind = .float

/-- The number that the token's text stands for with `sign` in front of it. -/
def number (token : Token) (sign : String) : Except SyntaxError Number :=
  let literal := sign ++ token.literal
  let read? := if token.kind = .float then Number.ofFloatText? else Number.ofIntegerText?
  match read? literal.toList with
  | some n => .ok n
  | none => .error { position := token.position, cause := .literalTooLarge literal }

/-- The text between two quotes, or the text itself if it has none. -/
def unquoted (text : String) : String :=
  match text.toList with
  | '"' :: rest => if rest.getLast? = some '"' then String.ofList rest.dropLast else text
  | _ => text

end Token

/-! ## Numeric expressions -/

mutual

/-- A term, or a term, `+` or `-`, and a numeric expression. -/
def NumExpr.read (ctx : Context) (tokens : List Token) : Reading NumExpr tokens :=
  match Term.read ctx tokens with
  | ⟨.error e, rest, h⟩ => ⟨.error e, rest, h⟩
  | ⟨.ok term, [], h⟩ => ⟨.ok (.single term), [], h⟩
  | ⟨.ok term, token :: rest, h⟩ =>
    match Operator.sum? token.kind with
    | none => ⟨.ok (.single term), token :: rest, h⟩
    | some op => ((NumExpr.read ctx rest).map (.chain term op)).within (suffix_of_cons_suffix h)
termination_by 3 * tokens.length + 2
decreasing_by
  · omega
  · have := h.length_le
    simp only [List.length_cons] at this
    omega

/-- A factor, or a factor, `*` or `/`, and a term. -/
def Term.read (ctx : Context) (tokens : List Token) : Reading Term tokens :=
  match Factor.read ctx tokens with
  | ⟨.error e, rest, h⟩ => ⟨.error e, rest, h⟩
  | ⟨.ok factor, [], h⟩ => ⟨.ok (.single factor), [], h⟩
  | ⟨.ok factor, token :: rest, h⟩ =>
    match Operator.product? token.kind with
    | none => ⟨.ok (.single factor), token :: rest, h⟩
    | some op => ((Term.read ctx rest).map (.chain factor op)).within (suffix_of_cons_suffix h)
termination_by 3 * tokens.length + 1
decreasing_by
  · omega
  · have := h.length_le
    simp only [List.length_cons] at this
    omega

/-- A literal, a negation, a numeric expression in parentheses or a variable. A
minus sign right before a literal belongs to the literal, so that the smallest
integer can be written. -/
def Factor.read (ctx : Context) (tokens : List Token) : Reading Factor tokens :=
  match tokens with
  | [] => .stay [] (.error (.expected .numberOperand (ctx.front [])))
  | token :: rest =>
    match token.kind with
    | .integer | .float =>
      (Reading.stay rest ((token.number "").map Factor.literal)).behind token
    | .dash =>
      match rest with
      | [] => (Reading.stay [] (.error (.expected .numberOperand (ctx.front [])))).behind token
      | next :: later =>
        if next.isNumber then
          ((Reading.stay later ((next.number "-").map Factor.literal)).behind next).behind token
        else ((Factor.read ctx (next :: later)).map .negate).behind token
    | .leftParen =>
      match NumExpr.read ctx rest with
      | ⟨.error e, left, h⟩ => Reading.behind token ⟨.error e, left, h⟩
      | ⟨.ok _, [], h⟩ =>
        Reading.behind token ⟨.error (.unclosedParen (ctx.front [])), [], h⟩
      | ⟨.ok inner, close :: left, h⟩ =>
        if close.kind = .rightParen then
          Reading.behind token ⟨.ok (.paren inner), left, suffix_of_cons_suffix h⟩
        else Reading.behind token ⟨.error (.unclosedParen close), close :: left, h⟩
    | .identifier =>
      match ctx.reference .number token with
      | .error e => .stay (token :: rest) (.error e)
      | .ok ref => (Reading.stay rest (.ok (Factor.reference ref))).behind token
    | _ => .stay (token :: rest) (.error (.expected .numberOperand token))
termination_by 3 * tokens.length
decreasing_by
  all_goals simp only [List.length_cons]; omega

end

/-! ## String expressions -/

/-- A quoted text or a variable of the kind string. -/
def StringOperand.read (ctx : Context) (token : Token) : Except SyntaxError StringOperand :=
  match token.kind with
  | .string => .ok (.literal (Token.unquoted token.literal))
  | .identifier => (ctx.reference .string token).map .reference
  | _ => .error (.expected .stringOperand token)

/-- An operand, or an operand, `+` and a string expression. -/
def StringExpr.read (ctx : Context) : (tokens : List Token) → Reading StringExpr tokens
  | [] => .stay [] (.error (.expected .stringOperand (ctx.front [])))
  | token :: rest =>
    match StringOperand.read ctx token with
    | .error e => .stay (token :: rest) (.error e)
    | .ok operand =>
      match rest with
      | [] => (Reading.stay [] (.ok (.single operand))).behind token
      | next :: later =>
        if next.kind = .plus then
          (((StringExpr.read ctx later).map (.chain operand)).behind next).behind token
        else (Reading.stay (next :: later) (.ok (.single operand))).behind token

/-! ## Expressions of a wanted kind -/

/-- An expression of the kind that its place asks for. -/
def Expr.read (ctx : Context) (kind : Kind) (tokens : List Token) : Reading Expr tokens :=
  match ctx.kindOf? (ctx.front tokens) with
  | .error e => .stay tokens (.error e)
  | .ok none => .stay tokens (.error (.expected (.expressionOf kind) (ctx.front tokens)))
  | .ok (some actual) =>
    if actual = kind then
      match kind with
      | .number => (NumExpr.read ctx tokens).map .number
      | .string => (StringExpr.read ctx tokens).map .string
    else .stay tokens (.error (.mismatch kind actual (ctx.front tokens)))

end LineScript
