import LineScript.Program

/-!
# Parsing from a cursor

The parser of programs as a machine. Its state is a cursor with the arena, the open blocks, the
errors and the log so far, and its routines look at the next token, take it and give it back.
No list becomes shorter on the way, so nothing in the routines says that they end. They are given
a limit for the depth of their calls, where a loop calls itself for its next turn, and a call that
goes deeper does not come back. That some limit is deep enough for all tokens, that the limit
changes nothing else, and that the machine reads what `Program.ofTokens` reads, are theorems
about it.
-/

namespace LineScript

/-- A parse in progress. -/
structure Parser where
  cursor : Cursor
  /-- The scopes with the declarations met so far. -/
  arena : Arena
  /-- The innermost open block. -/
  table : TableId
  /-- The blocks around it, from the inside out. -/
  outer : List TableId
  errors : List SyntaxError
  log : List Event

namespace Parser

/-- The parser in front of the first token, inside the outermost block. -/
def start (cursor : Cursor) : Parser :=
  let opened := Arena.empty.openTable none
  { cursor, arena := opened.2, table := opened.1, outer := [], errors := [], log := [] }

/-- Where the parser reads statements. -/
def site (p : Parser) : Site :=
  { table := p.table, depth := p.outer.length, stop := p.cursor.closing.position }

/-- What the parser reads expressions against. -/
def context (p : Parser) : Context :=
  p.site.context p.arena

/-- A call that changes the parser. It has no result if it does not come back. -/
abbrev Step (α : Type) : Type :=
  StateT Parser Option α

/-- A call that may fail. The parser is changed in either case. -/
abbrev Routine (α : Type) : Type :=
  ExceptT SyntaxError Step α

/-! ## Single steps -/

def peek : Step Token :=
  return (← get).cursor.peek

def pop : Step Token :=
  modifyGet fun p => (p.cursor.peek, { p with cursor := p.cursor.pop.2 })

def pushBack : Step Unit :=
  modify fun p => { p with cursor := p.cursor.pushBack }

def swallow (kind : TokenKind) : Step Bool :=
  modifyGet fun p =>
    ((p.cursor.swallow kind).1, { p with cursor := (p.cursor.swallow kind).2 })

def report (errors : List SyntaxError) : Step Unit :=
  modify fun p => { p with errors := p.errors ++ errors }

def tell (event : Event) : Step Unit :=
  modify fun p => { p with log := p.log ++ [event] }

/-- Binds a name in the innermost block. -/
def bindName (name : String) (kind : Kind) : Step SymbolId :=
  modifyGet fun p =>
    let declared := p.arena.declare p.table (.declared name kind)
    (declared.1, { p with arena := declared.2 })

/-- Opens a block at the brace of this position. -/
def enter (position : Position) : Step TableId :=
  modifyGet fun p =>
    let opened := p.arena.openTable (some p.table)
    (opened.1,
      { p with
        arena := opened.2
        table := opened.1
        outer := p.table :: p.outer
        log := p.log ++ [.blockOpened position (p.outer.length + 1)] })

/-- Closes the block that the brace of this position opened. -/
def leave (position : Position) : Step Unit :=
  modify fun p =>
    { p with
      table := p.outer.headD p.table
      outer := p.outer.tail
      log := p.log ++ [.blockClosed position] }

/-- Fails if the outcome is a failure. -/
def settle {α : Type} (outcome : Except SyntaxError α) : Routine α :=
  ExceptT.mk (pure outcome)

/-- Runs a routine to its outcome and does not fail with it. -/
def attempt {α : Type} (routine : Routine α) : Routine (Except SyntaxError α) :=
  ExceptT.lift routine.run

/-- A call that goes too deep. -/
def never {α : Type} : Step α :=
  fun _ => none

/-! ## Expressions -/

mutual

/-- A term, and a numeric expression if `+` or `-` is between them. -/
def numExpr : Nat → Routine NumExpr
  | 0 => never
  | limit + 1 => do
    let term ← term limit
    let token ← pop
    match Operator.sum? token.kind with
    | none => do
      pushBack
      return .single term
    | some op => return .chain term op (← numExpr limit)

/-- A factor, and a term if `*` or `/` is between them. -/
def term : Nat → Routine Term
  | 0 => never
  | limit + 1 => do
    let factor ← factor limit
    let token ← pop
    match Operator.product? token.kind with
    | none => do
      pushBack
      return .single factor
    | some op => return .chain factor op (← term limit)

def factor : Nat → Routine Factor
  | 0 => never
  | limit + 1 => do
    let token ← peek
    match token.kind with
    | .integer | .float => do
      let _ ← pop
      return .literal (← settle (token.number ""))
    | .dash => do
      let _ ← pop
      let next ← peek
      if next.isNumber then do
        let _ ← pop
        return .literal (← settle (next.number "-"))
      else return .negate (← factor limit)
    | .leftParen => do
      let _ ← pop
      let inner ← numExpr limit
      let close ← peek
      if close.kind = .rightParen then do
        let _ ← pop
        return .paren inner
      else throw (.unclosedParen close)
    | .identifier => do
      let ref ← settle ((← get).context.reference .number token)
      let _ ← pop
      return .reference ref
    | _ => throw (.expected .numberOperand token)

end

def stringExpr : Nat → Routine StringExpr
  | 0 => never
  | limit + 1 => do
    let token ← peek
    let operand ← settle (StringOperand.read (← get).context token)
    let _ ← pop
    let next ← pop
    if next.kind = .plus then return .chain operand (← stringExpr limit)
    else do
      pushBack
      return .single operand

def expression (limit : Nat) (kind : Kind) : Routine Expr := do
  let token ← peek
  match ← settle ((← get).context.kindOf? token) with
  | none => throw (.expected (.expressionOf kind) token)
  | some actual =>
    if actual = kind then
      match kind with
      | .number => return .number (← numExpr limit)
      | .string => return .string (← stringExpr limit)
    else throw (.mismatch kind actual token)

/-! ## Statements without statements inside them -/

def initial (limit : Nat) (kind : Kind) : Routine (Option Expr) := do
  if ← swallow .equals then return some (← expression limit kind) else return none

/-- A declaration behind its keyword. The name is bound behind its first value, and also if that
value fails. -/
def declare (limit : Nat) (position : Position) : Routine Statement := do
  let name ← peek
  if name.kind = .identifier then do
    let _ ← pop
    let type ← peek
    match Statement.typeWord? type.kind with
    | none => throw (.malformed type (.noType name.literal type.describe))
    | some kind => do
      let _ ← pop
      let p ← get
      match p.arena.getLocal p.table name.literal with
      | .ok (some _) => throw (.redeclared name)
      | _ => do
        let outcome ← attempt (initial limit kind)
        let symbol ← bindName name.literal kind
        return .declare position name.literal symbol kind (← settle outcome)
  else throw (.malformed name (.noName name.describe))

/-- An assignment behind its target. -/
def assign (limit : Nat) (target : Token) : Routine Statement := do
  match (← get).context.resolve? target.literal with
  | none => throw (.undeclared target)
  | some binding => do
    let operator ← peek
    match Statement.compound? operator.kind with
    | none => throw (.expected .assignmentOperator operator)
    | some compound => do
      let _ ← pop
      let value ← expression limit binding.kind
      return .assign target.position target.literal binding.symbol compound value

/-- An output statement behind its keyword. -/
def print (limit : Nat) (position : Position) (newline : Bool) : Routine Statement := do
  let next ← peek
  if Statement.endsBefore next.kind then return .print position newline none
  else
    match ← settle ((← get).context.kindOf? next) with
    | none => throw (.expected .expression next)
    | some kind => return .print position newline (some (← expression limit kind))

/-- A statement that begins with the token in front of the cursor. If none begins so, the token
is given back. -/
def leaf (limit : Nat) (first : Token) : Routine Statement :=
  match first.kind with
  | .keyword .var => declare limit first.position
  | .identifier => assign limit first
  | .keyword .print => print limit first.position false
  | .keyword .println => print limit first.position true
  | _ => do
    pushBack
    throw (.unexpected first)

/-- Takes the line end behind a statement. What else may end a statement is left in place. -/
def finish : Routine Unit := do
  let token ← peek
  match token.kind with
  | .newline => do
    let _ ← pop
  | .endOfInput | .rightBrace | .hash => return
  | _ => throw (.expected .endOfStatement token)

/-- A statement with what ends it. -/
def ended (statement : Routine Statement) : Routine Statement := do
  let tree ← statement
  finish
  return tree

/-! ## Going on after an error -/

/-- Drops the rest of a failed statement. -/
def resync : Nat → Step Unit
  | 0 => never
  | limit + 1 => do
    let token ← peek
    match token.kind with
    | .endOfInput => return
    | .rightBrace => do
      if (← get).site.nested then return
      else do
        let _ ← pop
        resync limit
    | .newline => do
      let _ ← pop
    | _ => do
      let _ ← pop
      resync limit

/-- Drops the rest of a block in which `depth` inner blocks are open. -/
def skipBlock : Nat → Nat → Step Unit
  | 0, _ => never
  | limit + 1, depth => do
    let token ← pop
    match token.kind with
    | .endOfInput => report ((← get).site.endErrors token.position)
    | .leftBrace => skipBlock limit (depth + 1)
    | .rightBrace => do
      if (← get).site.nested && depth = 0 then return else skipBlock limit (depth - 1)
    | _ => skipBlock limit depth

/-! ## Bodies -/

mutual

def statement : Nat → Routine Statement
  | 0 => never
  | limit + 1 => do
    let first ← pop
    tell (.statement first)
    if first.kind = .leftBrace then ended (block limit first.position)
    else ended (leaf limit first)

/-- A block behind the brace of this position. -/
def block : Nat → Position → Step Statement
  | 0, _ => never
  | limit + 1, position => do
    let table ← enter position
    let statements ← body limit
    leave position
    return .block position table statements

/-- One statement of a body with what follows it if it fails, and whether the body goes on. -/
def turn : Nat → Step (Statement × Bool)
  | 0 => never
  | limit + 1 => do
    match ← (statement limit).run with
    | .ok tree => return (tree, true)
    | .error e => do
      tell (.statementFailed e)
      report [e]
      if e.abortsBlock then do
        skipBlock limit 0
        return (.null, false)
      else do
        resync limit
        return (.null, true)

/-- The statements up to the end of the block. -/
def body : Nat → Step (List Statement)
  | 0 => never
  | limit + 1 => do
    let token ← peek
    match token.kind with
    | .newline | .hash => do
      let _ ← pop
      body limit
    | .endOfInput => do
      report ((← get).site.endErrors token.position)
      return []
    | .rightBrace => do
      let _ ← pop
      if (← get).site.nested then return []
      else do
        report [.unmatched token]
        body limit
    | _ => do
      let (tree, goes) ← turn limit
      if goes then return tree :: (← body limit) else return [tree]

end

/-- The whole program. -/
def program (limit : Nat) : Step Program := do
  let statements ← body limit
  let p ← get
  return { root := { position := .start, table := p.table, body := statements }, arena := p.arena }

end Parser

end LineScript
