import LineScript.Proofs.Reading.Statements

/-!
# Well-formed programs

A tree and an arena belong together if every handle in the tree leads to what its
node says: a block to a table below the table around it, a declaration to a symbol
of its own in the table of its block, and every other use of a name to a symbol
that can be seen from there. Every program that is read from lines is well formed,
also one with errors: failed statements add symbols and tables to the arena that no
node mentions, but they take nothing away.
-/

namespace LineScript

/-- The variables of the expression are seen from the table and have its kind. -/
def Expr.Scoped (a : Arena) (table : TableId) (e : Expr) : Prop :=
  ∀ ref ∈ e.references, a.Sees table ref.name ref.symbol e.kind

namespace Statement

mutual

/-- The handles of the statement lead to what it says, if it stands in the block of
the given table. -/
def Fits (a : Arena) (table : TableId) : Statement → Prop
  | .null => True
  | .declare _ name symbol kind initial =>
    a.Binds table name symbol ∧ a.Holds symbol name kind ∧
      ∀ e ∈ initial, e.kind = kind ∧ e.Scoped a table
  | .assign _ name symbol _ e => a.Sees table name symbol e.kind ∧ e.Scoped a table
  | .print _ _ payload => ∀ e ∈ payload, e.Scoped a table
  | .block _ inner body =>
    (∃ t, a.table inner = .ok t ∧ t.parent = some table) ∧ AllFit a inner body

def AllFit (a : Arena) (table : TableId) : List Statement → Prop
  | [] => True
  | statement :: rest => statement.Fits a table ∧ AllFit a table rest

end

mutual

/-- The tables of the blocks in a statement, in the order in which the blocks begin. -/
def tables : Statement → List TableId
  | .block _ table body => table :: tablesAll body
  | _ => []

def tablesAll : List Statement → List TableId
  | [] => []
  | statement :: rest => statement.tables ++ tablesAll rest

end

mutual

/-- The symbols that the declarations in a statement belong to, from the left. -/
def declared : Statement → List SymbolId
  | .declare _ _ symbol _ _ => [symbol]
  | .block _ _ body => declaredAll body
  | _ => []

def declaredAll : List Statement → List SymbolId
  | [] => []
  | statement :: rest => statement.declared ++ declaredAll rest

end

end Statement

/-- Tree and arena of the program belong together, and nothing was stored yet. -/
structure Program.WellFormed (p : Program) : Prop where
  root : p.root.table = { index := 0 }
  outermost : ∃ t, p.arena.table p.root.table = .ok t ∧ t.parent = none
  body : Statement.AllFit p.arena p.root.table p.root.body
  tables : (p.root.table :: Statement.tablesAll p.root.body).Pairwise (·.index < ·.index)
  layered : p.arena.Layered
  declared : (Statement.declaredAll p.root.body).Nodup
  initial : p.arena.Initial

/-! ## Larger arenas -/

section mono

variable {a b : Arena} {table : TableId}

theorem Expr.Scoped.mono {e : Expr} (h : e.Scoped a table) (hab : a.Extends b) :
    e.Scoped b table :=
  fun ref href => hab.sees (h ref href)

mutual

/-- A statement that fits an arena fits every larger one. -/
theorem Statement.Fits.mono (hab : a.Extends b) : ∀ {statement : Statement} {table : TableId},
    statement.Fits a table → statement.Fits b table
  | .null, _, _ => trivial
  | .declare .., _, ⟨hbinds, hholds, hinit⟩ =>
    ⟨hab.binds hbinds, hab.holds hholds, fun e he => ⟨(hinit e he).1, (hinit e he).2.mono hab⟩⟩
  | .assign .., _, ⟨hsees, hscoped⟩ => ⟨hab.sees hsees, hscoped.mono hab⟩
  | .print .., _, hpayload => fun e he => (hpayload e he).mono hab
  | .block _ inner body, _, ⟨⟨t, ht, hparent⟩, hbody⟩ => by
    obtain ⟨u, hu, hup, -⟩ := hab.table ht
    exact ⟨⟨u, hu, hup.trans hparent⟩, Statement.AllFit.mono hab hbody⟩

theorem Statement.AllFit.mono (hab : a.Extends b) : ∀ {body : List Statement} {table : TableId},
    Statement.AllFit a table body → Statement.AllFit b table body
  | [], _, _ => trivial
  | _ :: _, _, ⟨hfirst, hrest⟩ =>
    ⟨Statement.Fits.mono hab hfirst, Statement.AllFit.mono hab hrest⟩

end

end mono

/-! ## What reading a body leaves -/

/-- The variables of an expression that was read are in scope. -/
theorem Expr.scoped_of_read {site : Site} {a : Arena} {kind : Kind} {tokens : List Token} {e : Expr}
    (ha : a.WellFormed)
    (hread : (Expr.read (site.context a) kind tokens).outcome = .ok e) :
    e.kind = kind ∧ e.Scoped a site.table := by
  obtain ⟨-, -, ⟨rfl, hresolves⟩, -⟩ := Expr.read_sound _ kind tokens hread
  exact ⟨rfl, fun ref href => ha.sees_of_resolve? (hresolves ref href)⟩

/-- The numbers grow from the left and lie between the bounds. -/
def Ascending (low high : Nat) (xs : List Nat) : Prop :=
  xs.Pairwise (· < ·) ∧ ∀ x ∈ xs, low ≤ x ∧ x < high

namespace Ascending

variable {low middle high n : Nat} {xs ys : List Nat}

theorem nil : Ascending low high [] := by
  simp [Ascending]

theorem append (hx : Ascending low middle xs) (hy : Ascending middle high ys)
    (hlow : low ≤ middle) (hhigh : middle ≤ high) : Ascending low high (xs ++ ys) := by
  refine ⟨List.pairwise_append.mpr ⟨hx.1, hy.1, ?_⟩, ?_⟩
  · intro x hxs y hys
    exact Nat.lt_of_lt_of_le (hx.2 x hxs).2 (hy.2 y hys).1
  · intro x h
    obtain h | h := List.mem_append.mp h
    · exact ⟨(hx.2 x h).1, Nat.lt_of_lt_of_le (hx.2 x h).2 hhigh⟩
    · exact ⟨Nat.le_trans hlow (hy.2 x h).1, (hy.2 x h).2⟩

theorem cons (hy : Ascending (n + 1) high ys) (hn : n < high) : Ascending n high (n :: ys) := by
  have hsingle : Ascending n (n + 1) [n] := by simp [Ascending]
  exact hsingle.append hy (Nat.le_succ n) hn

/-- A bound between two parts of a list. -/
theorem exists_between (h : Ascending low high (xs ++ ys)) (hle : low ≤ high) :
    ∃ mid, low ≤ mid ∧ mid ≤ high ∧ Ascending low mid xs ∧ Ascending mid high ys := by
  obtain ⟨hpairwise, hbounds⟩ := h
  rw [List.pairwise_append] at hpairwise
  obtain ⟨hx, hy, hxy⟩ := hpairwise
  have hxs : ∀ x ∈ xs, low ≤ x ∧ x < high := fun x hx => hbounds x (List.mem_append_left _ hx)
  have hys : ∀ y ∈ ys, low ≤ y ∧ y < high := fun y hy => hbounds y (List.mem_append_right _ hy)
  cases ys with
  | nil => exact ⟨high, hle, Nat.le_refl _, ⟨hx, hxs⟩, .nil⟩
  | cons y ys =>
    have hfirst := hys y List.mem_cons_self
    refine ⟨y, hfirst.1, Nat.le_of_lt hfirst.2, ⟨hx, ?_⟩, ⟨hy, ?_⟩⟩
    · exact fun x hx => ⟨(hxs x hx).1, hxy x hx y List.mem_cons_self⟩
    · refine List.forall_mem_cons.mpr ⟨⟨Nat.le_refl _, hfirst.2⟩, ?_⟩
      intro z hz
      exact ⟨Nat.le_of_lt (List.rel_of_pairwise_cons hy hz), (hys z (List.mem_cons_of_mem y hz)).2⟩

end Ascending

/-- What reading statements in the block of the table leaves: the arena `b`, which
has grown from `a`, and statements that fit it. New tables and symbols are handed
out in the order of the text. -/
structure Grown (table : TableId) (a b : Arena) (body : List Statement) : Prop where
  wellFormed : b.WellFormed
  initial : b.Initial
  grows : a.Grows table b
  fits : Statement.AllFit b table body
  tables : Ascending a.tables.size b.tables.size
    ((Statement.tablesAll body).map TableId.index)
  declared : Ascending a.symbols.size b.symbols.size
    ((Statement.declaredAll body).map SymbolId.index)

namespace Grown

variable {table : TableId} {a b c : Arena} {t : Table} {statement : Statement}
variable {body : List Statement} {site : Site}

theorem refl (ha : a.WellFormed) (hi : a.Initial) : Grown table a a [] where
  wellFormed := ha
  initial := hi
  grows := .refl table a
  fits := trivial
  tables := .nil
  declared := .nil

/-- The statements may be forgotten. -/
theorem null (h : Grown table a b body) : Grown table a b [.null] where
  wellFormed := h.wellFormed
  initial := h.initial
  grows := h.grows
  fits := ⟨trivial, trivial⟩
  tables := .nil
  declared := .nil

theorem cons (hs : Grown table a b [statement]) (hbody : Grown table b c body) :
    Grown table a c (statement :: body) where
  wellFormed := hbody.wellFormed
  initial := hbody.initial
  grows := hs.grows.trans hbody.grows
  fits := ⟨hs.fits.1.mono hbody.grows.toExtends, hbody.fits⟩
  tables := by
    have htables := hs.tables.append hbody.tables hs.grows.tables hbody.grows.tables
    simpa [Statement.tablesAll] using htables
  declared := by
    have hdeclared := hs.declared.append hbody.declared hs.grows.symbols hbody.grows.symbols
    simpa [Statement.declaredAll] using hdeclared

/-- The body of a block is read in a new table, and becomes one statement. -/
theorem block (position : Position)
    (h : Grown (a.openTable (some table)).1 (a.openTable (some table)).2 b body) :
    Grown table a b [.block position (a.openTable (some table)).1 body] where
  wellFormed := h.wellFormed
  initial := h.initial
  grows := h.grows.of_opened table
  fits := by
    obtain ⟨u, hu, hparent, -⟩ := h.grows.own Arena.table_openTable_new
    exact ⟨⟨⟨u, hu, hparent⟩, h.fits⟩, trivial⟩
  tables := by
    have htables := h.tables
    have hsize := h.grows.tables
    rw [Arena.openTable_size] at htables hsize
    simpa [Statement.tablesAll, Statement.tables] using htables.cons hsize
  declared := by
    simpa [Statement.declaredAll, Statement.declared] using h.declared

section leaf

variable {first : Token} {tokens left : List Token} {name : String} {kind : Kind}

/-- A declaration adds a symbol of its own. -/
theorem declare (position : Position) (initial : Option Expr) (ha : a.WellFormed)
    (hi : a.Initial) (ht : a.table table = .ok t) (hfree : a.getLocal table name = .ok none)
    (hinit : ∀ e ∈ initial, e.kind = kind ∧ e.Scoped a table) :
    Grown table a (a.declare table (.declared name kind)).2
      [.declare position name (a.declare table (.declared name kind)).1 kind initial] where
  wellFormed := ha.declare ht
  initial := hi.declare
  grows := .declare hfree
  fits := by
    have hgrows : a.Grows table (a.declare table (.declared name kind)).2 := .declare hfree
    refine ⟨⟨⟨_, Arena.table_declare_self ht, ?_⟩, ?_, ?_⟩, trivial⟩
    · simp [Symbol.declared]
    · exact ⟨_, Arena.symbol_declare_new, rfl, rfl⟩
    · exact fun e he => ⟨(hinit e he).1, (hinit e he).2.mono hgrows.toExtends⟩
  tables := .nil
  declared := by
    have hsingle : Ascending a.symbols.size (a.symbols.size + 1) [a.symbols.size] :=
      Ascending.nil.cons (Nat.lt_succ_self _)
    simpa [Statement.declaredAll, Statement.declared] using hsingle

/-- A statement that touches no table leaves the arena as it was. -/
theorem unchanged (ha : a.WellFormed) (hi : a.Initial) (hfits : statement.Fits a table)
    (htables : statement.tables = []) (hdeclared : statement.declared = []) :
    Grown table a a [statement] where
  wellFormed := ha
  initial := hi
  grows := .refl table a
  fits := ⟨hfits, trivial⟩
  tables := by simp [Statement.tablesAll, htables, Ascending.nil]
  declared := by simp [Statement.declaredAll, hdeclared, Ascending.nil]

theorem of_leafReads (h : LeafReads site a first tokens statement left b) (ha : a.WellFormed)
    (hi : a.Initial) (ht : a.table site.table = .ok t) : Grown site.table a b [statement] := by
  cases h with
  | declare _ _ _ hfree => exact .declare _ none ha hi ht hfree (by simp)
  | declareValue _ _ _ hfree _ hread =>
    refine .declare _ _ ha hi ht hfree ?_
    rintro e ⟨⟩
    exact Expr.scoped_of_read ha hread
  | assign _ htarget _ hread =>
    obtain ⟨hkind, hscoped⟩ := Expr.scoped_of_read ha hread
    refine .unchanged ha hi ⟨?_, hscoped⟩ rfl rfl
    rw [hkind]
    exact ha.sees_of_resolve? htarget
  | print => exact .unchanged ha hi (by simp [Statement.Fits]) rfl rfl
  | printValue _ hread =>
    refine .unchanged ha hi ?_ rfl rfl
    rintro e ⟨⟩
    exact (Expr.scoped_of_read ha hread).2

/-- A statement that holds no statements keeps the arena in order even if it fails. -/
theorem of_startsLeaf (tokens : List Token) (hleaf : first.StartsLeaf) (ha : a.WellFormed)
    (hi : a.Initial) (ht : a.table site.table = .ok t) :
    Grown site.table a (Statement.read site a first tokens).arena [.null] := by
  obtain harena | ⟨name, -, kind, -, hfree, harena⟩ :=
    Statement.read_arena_of_startsLeaf tokens hleaf ht
  · rw [harena]
    exact (Grown.refl ha hi).null
  · rw [harena]
    exact (Grown.declare .start none ha hi ht hfree (by simp)).null

end leaf

end Grown

/-- Reading a body keeps tree and arena in order, on every path of recovery. -/
theorem BodyReads.grown {site : Site} {a b : Arena} {tokens left : List Token}
    {body : List Statement} {errors : List SyntaxError}
    (h : BodyReads site a tokens body left b errors) (ha : a.WellFormed) (hi : a.Initial)
    {t : Table} (ht : a.table site.table = .ok t) : Grown site.table a b body := by
  induction h generalizing t with
  | ended => exact .refl ha hi
  | stopped => exact .refl ha hi
  | blank _ _ ih => exact ih ha hi ht
  | closed => exact .refl ha hi
  | stray _ _ _ ih => exact ih ha hi ht
  | leaf hleaf hread _ ih =>
    have hstatement := Grown.of_leafReads
      ((Statement.read_leaf_iff hleaf ht).mp ⟨hread, rfl, rfl⟩) ha hi ht
    obtain ⟨u, hu, -⟩ := hstatement.grows.own ht
    exact hstatement.cons (ih hstatement.wellFormed hstatement.initial hu)
  | @leafFailed site a _ token rest _ _ _ _ hleaf _ _ _ ih =>
    have hnull := Grown.of_startsLeaf rest hleaf ha hi ht
    obtain ⟨u, hu, -⟩ := hnull.grows.own ht
    exact hnull.cons (ih hnull.wellFormed hnull.initial hu)
  | leafAborted hleaf => exact .of_startsLeaf _ hleaf ha hi ht
  | @block _ _ _ _ token _ _ _ _ _ _ _ _ _ _ _ _ ihInner ihOuter =>
    have hopened := ha.openTable_of_table ht
    have hblock := (ihInner hopened hi.openTable Arena.table_openTable_new).block token.position
    obtain ⟨u, hu, -⟩ := hblock.grows.own ht
    exact hblock.cons (ihOuter hblock.wellFormed hblock.initial hu)
  | blockFailed _ _ _ _ ihInner ihOuter =>
    have hopened := ha.openTable_of_table ht
    have hblock := (ihInner hopened hi.openTable Arena.table_openTable_new).block .start
    obtain ⟨u, hu, -⟩ := hblock.grows.own ht
    exact hblock.null.cons (ihOuter hblock.wellFormed hblock.initial hu)

namespace Program

/-- The arena of a program before anything was read. -/
theorem wellFormed_rootArena : (Arena.empty.openTable none).2.WellFormed :=
  Arena.WellFormed.empty.openTable (by simp)

theorem initial_rootArena : (Arena.empty.openTable none).2.Initial := by
  intro target s hs
  simp [Arena.openTable, Arena.empty] at hs

theorem wellFormed_of_grown {body : List Statement} {b : Arena} {position : Position}
    (h : Grown (Arena.empty.openTable none).1 (Arena.empty.openTable none).2 b body) :
    WellFormed
      { root := { position, table := (Arena.empty.openTable none).1, body }, arena := b } where
  root := rfl
  outermost := by
    obtain ⟨u, hu, hparent, -⟩ := h.grows.own Arena.table_openTable_new
    exact ⟨u, hu, hparent⟩
  body := h.fits
  tables := by
    have hsize := h.grows.tables
    have htables := h.tables
    rw [Arena.openTable_size] at hsize htables
    exact List.pairwise_map.mp (htables.cons hsize).1
  layered := h.wellFormed.layered
  declared := by
    have hpairwise := h.declared.1
    rw [List.pairwise_map] at hpairwise
    refine hpairwise.imp ?_
    rintro x y hlt rfl
    exact Nat.lt_irrefl _ hlt
  initial := h.initial

theorem grown_ofTokens (cursor : Cursor) :
    Grown (Arena.empty.openTable none).1 (Arena.empty.openTable none).2 (ofTokens cursor).1.arena
      (ofTokens cursor).1.root.body :=
  (bodyReads_ofTokens cursor).grown wellFormed_rootArena initial_rootArena
    Arena.table_openTable_new

theorem wellFormed_ofTokens (cursor : Cursor) : (ofTokens cursor).1.WellFormed :=
  wellFormed_of_grown (grown_ofTokens cursor)

theorem wellFormed_empty : Program.empty.WellFormed :=
  wellFormed_of_grown (.refl wellFormed_rootArena initial_rootArena)

/-- Every program that is read is well formed, whatever the lines are. -/
theorem wellFormed_parse (lines : List String) : (parse lines).program.WellFormed := by
  unfold parse
  simp only
  split
  · exact wellFormed_ofTokens _
  · exact wellFormed_empty

end Program

end LineScript
