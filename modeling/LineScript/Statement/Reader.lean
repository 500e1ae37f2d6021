import LineScript.Log
import LineScript.Statement
import LineScript.Statement.Recovery

/-!
# Reading statements

A body is a sequence of statements and line ends. Reading it fills the arena:
every block opens a table, and every declaration adds a symbol. A statement that
cannot be read leaves an error and a null statement, and reading goes on behind
it, so that one run finds all errors.

Reading a body ends because a statement takes the token that it begins with.
-/

namespace LineScript

/-- Where statements are read: the innermost open block, the number of blocks
around it, and the end of the input. -/
structure Site where
  table : TableId
  depth : Nat
  stop : Position
  deriving DecidableEq, Repr

namespace Site

def nested (site : Site) : Bool :=
  0 < site.depth

/-- The names that are in scope here, given the declarations read so far. -/
def context (site : Site) (arena : Arena) : Context :=
  { resolve? := arena.resolve? site.table, stop := site.stop }

/-- The site inside a block that is opened here. -/
def inner (site : Site) (table : TableId) : Site :=
  { site with table, depth := site.depth + 1 }

end Site

/-- The outcome of reading one statement from the tokens `before`. -/
structure StatementReading (before : List Token) extends Reading Statement before where
  /-- The scopes with the declarations of the statement. -/
  arena : Arena
  /-- Errors of statements inside the statement. -/
  errors : List SyntaxError
  log : List Event

namespace StatementReading

variable {before : List Token}

/-- A reading of a statement that has no statements inside it. -/
def plain (arena : Arena) (r : Reading Statement before) : StatementReading before :=
  { r with arena, errors := [], log := [] }

/-- Takes the line end behind a statement that was read. What else may end a
statement is left in place. -/
def finish : StatementReading before → StatementReading before
  | ⟨⟨.ok statement, token :: rest, h⟩, arena, errors, log⟩ =>
    match token.kind with
    | .newline => ⟨⟨.ok statement, rest, suffix_of_cons_suffix h⟩, arena, errors, log⟩
    | .endOfInput | .rightBrace | .hash =>
      ⟨⟨.ok statement, token :: rest, h⟩, arena, errors, log⟩
    | _ => ⟨⟨.error (.expected .endOfStatement token), token :: rest, h⟩, arena, errors, log⟩
  | reading => reading

/-- Tells that the statement was begun. -/
def announce (first : Token) (r : StatementReading before) : StatementReading before :=
  { r with log := .statement first :: r.log }

end StatementReading

namespace SyntaxError

def malformed (found : Token) (flaw : DeclarationFlaw) : SyntaxError :=
  { position := found.position, cause := .malformedDeclaration flaw }

def redeclared (name : Token) : SyntaxError :=
  { position := name.position, cause := .redeclaration name.literal }

def unexpected (found : Token) : SyntaxError :=
  { position := found.position, cause := .unexpectedToken found.describe }

def unmatched (brace : Token) : SyntaxError :=
  { position := brace.position, cause := .unmatchedClosingBrace }

end SyntaxError

namespace Statement

/-! ## Statements without statements inside them -/

/-- The kind that a type word names. -/
def typeWord? : TokenKind → Option Kind
  | .keyword .number => some .number
  | .keyword .string => some .string
  | _ => none

/-- Reads the first value of a variable, if one is given. -/
def readInitial (ctx : Context) (kind : Kind) (tokens : List Token) :
    Reading (Option Expr) tokens :=
  match tokens with
  | [] => .stay [] (.ok none)
  | token :: rest =>
    if token.kind = .equals then ((Expr.read ctx kind rest).map some).behind token
    else .stay (token :: rest) (.ok none)

/-- Reads a declaration behind its keyword: a name, a type word, and possibly `=`
and a first value. The variable is not in scope in its own first value, and it is
declared even if that value is faulty. -/
def readDeclare (site : Site) (arena : Arena) (position : Position) (tokens : List Token) :
    StatementReading tokens :=
  let ctx := site.context arena
  let name := ctx.front tokens
  if name.kind = .identifier then
    let type := ctx.front tokens.tail
    match typeWord? type.kind with
    | none =>
      .plain arena <| .within (List.tail_suffix tokens) <|
        .stay tokens.tail (.error (.malformed type (.noType name.literal type.describe)))
    | some kind =>
      have later : tokens.tail.tail <:+ tokens :=
        (List.tail_suffix tokens.tail).trans (List.tail_suffix tokens)
      match arena.getLocal site.table name.literal with
      | .ok (some _) =>
        .plain arena <| .within later <| .stay tokens.tail.tail (.error (.redeclared name))
      | _ =>
        let (symbol, declared) := arena.declare site.table (.declared name.literal kind)
        .plain declared <| .within later <|
          (readInitial ctx kind tokens.tail.tail).map (.declare position name.literal symbol kind)
  else .plain arena <| .stay tokens (.error (.malformed name (.noName name.describe)))

/-- Whether an assignment operator adds to the old value. -/
def compound? : TokenKind → Option Bool
  | .equals => some false
  | .plusEquals => some true
  | _ => none

/-- Reads an assignment behind its target: `=` or `+=`, and a value of the
target's kind. -/
def readAssign (ctx : Context) (target : Token) (tokens : List Token) :
    Reading Statement tokens :=
  match ctx.resolve? target.literal with
  | none => .stay tokens (.error (.undeclared target))
  | some binding =>
    match compound? (ctx.front tokens).kind with
    | none => .stay tokens (.error (.expected .assignmentOperator (ctx.front tokens)))
    | some compound =>
      ((Expr.read ctx binding.kind tokens.tail).map
        (.assign target.position target.literal binding.symbol compound)).within
        (List.tail_suffix tokens)

/-- Whether a statement may end in front of a token of this kind. -/
def endsBefore : TokenKind → Bool
  | .newline | .endOfInput | .rightBrace | .hash => true
  | _ => false

/-- Reads an output statement behind its keyword: nothing, or an expression of
either kind. -/
def readPrint (ctx : Context) (position : Position) (newline : Bool) (tokens : List Token) :
    Reading Statement tokens :=
  let next := ctx.front tokens
  if endsBefore next.kind then .stay tokens (.ok (.print position newline none))
  else
    match ctx.kindOf? next with
    | .error e => .stay tokens (.error e)
    | .ok none => .stay tokens (.error (.expected .expression next))
    | .ok (some kind) =>
      (Expr.read ctx kind tokens).map fun e => .print position newline (some e)

end Statement

/-! ## Bodies -/

/-- The outcome of reading the statements of a block from the tokens `before`. -/
structure BodyReading (before : List Token) where
  body : List Statement
  rest : List Token
  suffix : rest <:+ before
  arena : Arena
  errors : List SyntaxError
  log : List Event

namespace BodyReading

/-- The end of a body. -/
def done (before : List Token) (arena : Arena) (errors : List SyntaxError) : BodyReading before :=
  { body := [], rest := before, suffix := List.suffix_rfl, arena, errors, log := [] }

/-- A reading from later tokens, with what was read in front of them. -/
def after {before later : List Token} (h : later <:+ before) (statements : List Statement)
    (errors : List SyntaxError) (log : List Event) (r : BodyReading later) : BodyReading before :=
  { body := statements ++ r.body
    rest := r.rest
    suffix := r.suffix.trans h
    arena := r.arena
    errors := errors ++ r.errors
    log := log ++ r.log }

end BodyReading

/-- A nested block has to be closed before the input ends. -/
def Site.endErrors (site : Site) (position : Position) : List SyntaxError :=
  if site.nested then [Recovery.unclosed position] else []

mutual

/-- Reads the statement that `first` begins, up to its end. A token that begins no
statement is dropped. -/
def Statement.read (site : Site) (arena : Arena) (first : Token) (tokens : List Token) :
    StatementReading tokens :=
  let ctx := site.context arena
  match first.kind with
  | .keyword .var =>
    (Statement.readDeclare site arena first.position tokens).finish.announce first
  | .identifier =>
    (StatementReading.plain arena (Statement.readAssign ctx first tokens)).finish.announce first
  | .keyword .print =>
    (StatementReading.plain arena
      (Statement.readPrint ctx first.position false tokens)).finish.announce first
  | .keyword .println =>
    (StatementReading.plain arena
      (Statement.readPrint ctx first.position true tokens)).finish.announce first
  | .leftBrace =>
    let opened := arena.openTable (some site.table)
    let inside := site.inner opened.1
    match readBody inside opened.2 tokens with
    | ⟨body, rest, h, arena, errors, log⟩ =>
      (StatementReading.finish
        ⟨⟨.ok (.block first.position opened.1 body), rest, h⟩, arena, errors,
          .blockOpened first.position inside.depth :: log ++
            [.blockClosed first.position]⟩).announce first
  | _ =>
    (StatementReading.plain arena (.stay tokens (.error (.unexpected first)))).announce first
termination_by 2 * tokens.length + 1
decreasing_by
  omega

/-- Reads statements up to and including the brace that closes the block, or up to
the end of input. -/
def readBody (site : Site) (arena : Arena) (tokens : List Token) : BodyReading tokens :=
  match tokens with
  | [] => .done [] arena (site.endErrors site.stop)
  | token :: rest =>
    match token.kind with
    | .newline | .hash => (readBody site arena rest).after (List.suffix_cons token rest) [] [] []
    | .endOfInput => .done (token :: rest) arena (site.endErrors token.position)
    | .rightBrace =>
      if site.nested then
        (BodyReading.done rest arena []).after (List.suffix_cons token rest) [] [] []
      else
        (readBody site arena rest).after (List.suffix_cons token rest) [] [.unmatched token] []
    | _ =>
      match Statement.read site arena token rest with
      | ⟨⟨.ok statement, left, h⟩, arena, errors, log⟩ =>
        (readBody site arena left).after (h.trans (List.suffix_cons token rest)) [statement] errors
          log
      | ⟨⟨.error e, left, h⟩, arena, errors, log⟩ =>
        have reach : left <:+ token :: rest := h.trans (List.suffix_cons token rest)
        if e.abortsBlock then
          let skipped := Recovery.skipBlock site.stop site.nested 0 left
          (BodyReading.done skipped.2 arena skipped.1.toList).after
            ((Recovery.skipBlock_suffix site.stop site.nested 0 left).trans reach) [.null]
            (errors ++ [e]) (log ++ [.statementFailed e])
        else
          (readBody site arena (Recovery.resync site.nested left)).after
            ((Recovery.resync_suffix site.nested left).trans reach) [.null] (errors ++ [e])
            (log ++ [.statementFailed e])
termination_by 2 * tokens.length
decreasing_by
  · simp only [List.length_cons]; omega
  · simp only [List.length_cons]; omega
  · simp only [List.length_cons]; omega
  · have := h.length_le
    simp only [List.length_cons]
    omega
  · have := (Recovery.resync_suffix site.nested left).length_le
    have := h.length_le
    simp only [List.length_cons]
    omega

end

end LineScript
