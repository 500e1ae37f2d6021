import LineScript.Scope.Symbol

/-!
# Scopes

The scopes of a program live in one arena: a table of names for every block, and
the symbols that the names lead to. Tables and symbols are never removed, so a
handle stays good. Every table but the outermost has a parent, and a name is
looked up along the chain of parents.

Nothing forces a handle to come from the same arena. An operation that reaches a
handle without a table or a symbol ends in a `Fault`, and it reaches parents one
by one: a lookup that succeeds before the chain breaks is no fault.
-/

namespace LineScript

structure TableId where
  index : Nat
  deriving DecidableEq, Repr

structure SymbolId where
  index : Nat
  deriving DecidableEq, Repr

/-- A handle that leads nowhere. -/
inductive Fault where
  | noTable (id : TableId)
  | noSymbol (id : SymbolId)
  deriving DecidableEq, Repr

/-- The names declared in one block. No name occurs twice in `locals`. -/
structure Table where
  locals : List (String × SymbolId)
  parent : Option TableId
  deriving DecidableEq, Repr

namespace Table

def find? (t : Table) (name : String) : Option SymbolId :=
  t.locals.lookup name

def erase (t : Table) (name : String) : Table :=
  { t with locals := t.locals.filter fun entry => entry.1 ≠ name }

/-- Lets the name lead to the symbol, whatever it led to before. -/
def bind (t : Table) (name : String) (id : SymbolId) : Table :=
  { t with locals := (t.erase name).locals ++ [(name, id)] }

/-- Whether two tables have the same parent and bind the same names to the same
symbols. The order in which the names were bound does not count. -/
def same (a b : Table) : Bool :=
  a.parent = b.parent && a.locals.length = b.locals.length &&
    a.locals.all fun entry => b.find? entry.1 = some entry.2

end Table

structure Arena where
  tables : Array Table
  symbols : Array Symbol
  deriving DecidableEq, Repr

namespace Arena

def empty : Arena :=
  { tables := #[], symbols := #[] }

def contains (a : Arena) (id : TableId) : Bool :=
  id.index < a.tables.size

def table (a : Arena) (id : TableId) : Except Fault Table :=
  match a.tables[id.index]? with
  | some t => .ok t
  | none => .error (.noTable id)

def symbol (a : Arena) (id : SymbolId) : Except Fault Symbol :=
  match a.symbols[id.index]? with
  | some s => .ok s
  | none => .error (.noSymbol id)

/-- The handles of all tables, in the order in which they were opened. -/
def tableIds (a : Arena) : List TableId :=
  (List.range a.tables.size).map TableId.mk

/-- Adds an empty table. The parent is not checked and may come later. -/
def openTable (a : Arena) (parent : Option TableId) : TableId × Arena :=
  ({ index := a.tables.size }, { a with tables := a.tables.push { locals := [], parent } })

/-- Adds a symbol and binds its name in a table. An unknown table binds nothing. -/
def declare (a : Arena) (id : TableId) (s : Symbol) : SymbolId × Arena :=
  let fresh : SymbolId := { index := a.symbols.size }
  (fresh,
    { tables := a.tables.modify id.index fun t => t.bind s.name fresh
      symbols := a.symbols.push s })

/-! ## The chain of a table -/

/-- At most `limit` tables of the chain that starts here. -/
def chainFrom (a : Arena) : (limit : Nat) → Option TableId → List TableId
  | 0, _ => []
  | _, none => []
  | limit + 1, some id =>
    id :: a.chainFrom limit (a.tables[id.index]?.bind Table.parent)

/-- A table, its parent, the parent's parent, and so on. A chain without a cycle
meets every table at most once and may end in one handle that leads nowhere. -/
def chain (a : Arena) (id : TableId) : List TableId :=
  a.chainFrom (a.tables.size + 1) (some id)

/-- The first answer that `f` gives along a list of tables. -/
def search {α : Type} (a : Arena) (f : Table → Option α) : List TableId → Except Fault (Option α)
  | [] => .ok none
  | id :: rest => do
    let t ← a.table id
    match f t with
    | some found => return some found
    | none => a.search f rest

/-- How many tables enclose this one. -/
def depth (a : Arena) (id : TableId) : Except Fault Nat := do
  let tables ← (a.chain id).mapM a.table
  return tables.length - 1

/-! ## Names -/

/-- What the name leads to in this table. -/
def getLocal (a : Arena) (id : TableId) (name : String) : Except Fault (Option SymbolId) := do
  return (← a.table id).find? name

/-- What the name leads to in the nearest table of the chain that binds it. -/
def get (a : Arena) (id : TableId) (name : String) : Except Fault (Option SymbolId) :=
  a.search (fun t => t.find? name) (a.chain id)

/-- Whether some table of the chain binds the symbol's name to the symbol. -/
def isVisible (a : Arena) (id : TableId) (target : SymbolId) : Except Fault Bool := do
  let s ← a.symbol target
  let bound (t : Table) : Option Unit := if t.find? s.name = some target then some () else none
  return (← a.search bound (a.chain id)).isSome

/-- The symbols bound in a table, in the order of their names. -/
def locals (a : Arena) (id : TableId) : Except Fault (List Symbol) := do
  let t ← a.table id
  let symbols ← t.locals.mapM fun entry => a.symbol entry.2
  return symbols.mergeSort fun s t => s.name ≤ t.name

/-! ## Checked changes -/

/-- Adds a symbol to a table that has to exist. -/
def add (a : Arena) (id : TableId) (s : Symbol) : Except Fault (SymbolId × Arena) := do
  let _ ← a.table id
  return a.declare id s

/-- Takes a name out of a table and says whether it was there. The symbol stays. -/
def delete (a : Arena) (id : TableId) (name : String) : Except Fault (Bool × Arena) := do
  let t ← a.table id
  let tables := a.tables.modify id.index fun t => t.erase name
  return ((t.find? name).isSome, { a with tables })

/-- Changes a symbol in place. -/
def update (a : Arena) (id : SymbolId) (f : Symbol → Symbol) : Except Fault Arena := do
  let _ ← a.symbol id
  return { a with symbols := a.symbols.modify id.index f }

def same (a b : Arena) : Bool :=
  a.tables.size = b.tables.size && a.symbols.size = b.symbols.size &&
    (a.tables.toList.zip b.tables.toList).all (fun (s, t) => s.same t) &&
    (a.symbols.toList.zip b.symbols.toList).all (fun (s, t) => s.same t)

/-! ## What a program reader sees -/

/-- A name's symbol and its kind. -/
structure Binding where
  symbol : SymbolId
  kind : Kind
  deriving DecidableEq, Repr

/-- The symbol and the kind that the name has in this table's chain. -/
def resolve? (a : Arena) (id : TableId) (name : String) : Option Binding :=
  match a.get id name with
  | .ok (some target) =>
    match a.symbol target with
    | .ok s => some { symbol := target, kind := s.kind }
    | .error _ => none
  | _ => none

end Arena

end LineScript
