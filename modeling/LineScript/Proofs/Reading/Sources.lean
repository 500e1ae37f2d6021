import LineScript.Proofs.Reading.Trees
import LineScript.Proofs.Scope.Histories
import LineScript.Proofs.WellFormed

/-!
# Where the texts of a program come from

A program that was read holds no text of its own making. Every string in its tree is the text
between the quotes of a token, and every name in its arena is the text of an identifier
(`Program.sourced_ofTokens`). This holds on every path of recovery: a statement that is given
up may have declared its variable, but under a name that stands in the source. Reading builds the
arena by opening tables and adding symbols, so that all that is known of arenas with a history
holds for it.
-/

namespace LineScript

/-! ## The strings of a tree -/

def StringOperand.literals : StringOperand → List String
  | .literal text => [text]
  | .reference _ => []

def StringExpr.literals : StringExpr → List String
  | .single operand => operand.literals
  | .chain operand rest => operand.literals ++ rest.literals

/-- The strings that are written in an expression, without their quotes. -/
def Expr.literals : Expr → List String
  | .number _ => []
  | .string e => e.literals

namespace Statement

mutual

/-- The strings that are written in a statement. -/
def literals : Statement → List String
  | .null => []
  | .declare _ _ _ _ initial => initial.elim [] Expr.literals
  | .assign _ _ _ _ e => e.literals
  | .print _ _ payload => payload.elim [] Expr.literals
  | .block _ _ body => literalsAll body

def literalsAll : List Statement → List String
  | [] => []
  | statement :: rest => statement.literals ++ literalsAll rest

end

end Statement

/-- The text stands between the quotes of one of the tokens. -/
def Token.Quotes (tokens : List Token) (text : String) : Prop :=
  ∃ token ∈ tokens, token.kind = .string ∧ text = Token.unquoted token.literal

/-- The text is an identifier among the tokens. -/
def Token.Names (tokens : List Token) (text : String) : Prop :=
  ∃ token ∈ tokens, token.kind = .identifier ∧ text = token.literal

section expressions

variable {ctx : Context} {tokens left more : List Token} {text : String}

theorem Token.Quotes.mono (h : Token.Quotes tokens text) (hsub : tokens ⊆ more) :
    Token.Quotes more text := by
  obtain ⟨token, htoken, hkind, rfl⟩ := h
  exact ⟨token, hsub htoken, hkind, rfl⟩

theorem Token.Names.mono (h : Token.Names tokens text) (hsub : tokens ⊆ more) :
    Token.Names more text := by
  obtain ⟨token, htoken, hkind, rfl⟩ := h
  exact ⟨token, hsub htoken, hkind, rfl⟩

theorem StringOperand.quotes_of_read {token : Token} {operand : StringOperand}
    (h : StringOperand.read ctx token = .ok operand) (htext : text ∈ operand.literals) :
    Token.Quotes [token] text := by
  unfold StringOperand.read at h
  split at h
  case h_1 hkind =>
    cases h
    exact ⟨token, List.mem_singleton_self _, hkind, List.mem_singleton.mp htext⟩
  case h_2 =>
    cases hreference : ctx.reference .string token with
    | error e =>
      rw [hreference] at h
      cases h
    | ok ref =>
      rw [hreference] at h
      cases h
      cases htext
  case h_3 => cases h

theorem StringReads.quotes {e : StringExpr} (h : StringReads ctx tokens e left)
    (htext : text ∈ e.literals) : Token.Quotes tokens text := by
  induction h with
  | single hoperand =>
    exact (StringOperand.quotes_of_read hoperand htext).mono (by simp)
  | chain hoperand _ _ ih =>
    obtain hfirst | hlater := List.mem_append.mp htext
    · exact (StringOperand.quotes_of_read hoperand hfirst).mono (by simp)
    · exact (ih hlater).mono fun token htoken => by simp [htoken]

theorem Expr.quotes_of_read {kind : Kind} {e : Expr}
    (h : (Expr.read ctx kind tokens).outcome = .ok e) (htext : text ∈ e.literals) :
    Token.Quotes tokens text := by
  cases Expr.exprReads_of_read h with
  | number => cases htext
  | string hreads => exact hreads.quotes htext

end expressions

/-! ## What reading takes from the tokens -/

/-- The strings of the statements and the new names of the second arena come from the tokens,
and the second arena is built from the first. -/
structure Sourced (tokens : List Token) (a b : Arena) (body : List Statement) : Prop where
  literals : ∀ ⦃text⦄, text ∈ Statement.literalsAll body → Token.Quotes tokens text
  names : ∀ ⦃target s⦄, b.symbol target = .ok s →
    a.symbol target = .ok s ∨ Token.Names tokens s.name
  built : ∀ ⦃history⦄, Arena.Built history a → ∃ history', Arena.Built history' b

namespace Sourced

variable {tokens left more : List Token} {a b c : Arena} {t : Table} {statement : Statement}
variable {body : List Statement} {site : Site} {first : Token} {table : TableId}

theorem refl (tokens : List Token) (a : Arena) : Sourced tokens a a [] where
  literals _ htext := by cases htext
  names _ _ hs := .inl hs
  built history hbuilt := ⟨history, hbuilt⟩

theorem mono (h : Sourced tokens a b body) (hsub : tokens ⊆ more) : Sourced more a b body where
  literals _ htext := (h.literals htext).mono hsub
  names _ _ hs := (h.names hs).imp id fun hname => hname.mono hsub
  built := h.built

/-- The statements may be forgotten. -/
theorem null (h : Sourced tokens a b body) : Sourced tokens a b [.null] where
  literals _ htext := by simp [Statement.literalsAll, Statement.literals] at htext
  names := h.names
  built := h.built

theorem cons (hs : Sourced tokens a b [statement]) (hbody : Sourced tokens b c body) :
    Sourced tokens a c (statement :: body) where
  literals text htext := by
    rw [Statement.literalsAll] at htext
    obtain hfirst | hlater := List.mem_append.mp htext
    · exact hs.literals (by simpa [Statement.literalsAll] using hfirst)
    · exact hbody.literals hlater
  names target s hsymbol := (hbody.names hsymbol).elim (fun hold => hs.names hold) .inr
  built history hbuilt := by
    obtain ⟨middle, hmiddle⟩ := hs.built hbuilt
    exact hbody.built hmiddle

/-- The body of a block is read in a new table. -/
theorem block (position : Position) (ht : a.table table = .ok t)
    (h : Sourced tokens (a.openTable (some table)).2 b body) :
    Sourced tokens a b [.block position (a.openTable (some table)).1 body] where
  literals text htext := h.literals (by
    simpa [Statement.literalsAll, Statement.literals] using htext)
  names := h.names
  built history hbuilt := by
    refine h.built (.opening hbuilt ?_)
    rintro p ⟨⟩
    exact Arena.contains_of_table ht

/-- A declaration under a name that is a token. -/
theorem declare {name : Token} {kind : Kind} (ht : a.table table = .ok t)
    (hmem : name ∈ tokens) (hname : name.kind = .identifier)
    (hliterals : ∀ ⦃text⦄, text ∈ statement.literals → Token.Quotes tokens text) :
    Sourced tokens a (a.declare table (.declared name.literal kind)).2 [statement] where
  literals text htext := hliterals (by simpa [Statement.literalsAll] using htext)
  names target s hs := by
    obtain hold | rfl := Arena.symbol_of_declare hs
    · exact .inl hold
    · exact .inr ⟨name, hmem, hname, rfl⟩
  built history hbuilt :=
    ⟨_, .adding hbuilt (Arena.add_eq_ok.mpr ⟨Arena.contains_of_table ht, rfl⟩)⟩

/-- A statement that leaves the arena alone. -/
theorem unchanged (hliterals : ∀ ⦃text⦄, text ∈ statement.literals → Token.Quotes tokens text) :
    Sourced tokens a a [statement] where
  literals text htext := hliterals (by simpa [Statement.literalsAll] using htext)
  names _ _ hs := .inl hs
  built history hbuilt := ⟨history, hbuilt⟩

theorem of_leafReads (h : LeafReads site a first tokens statement left b)
    (ht : a.table site.table = .ok t) : Sourced tokens a b [statement] := by
  cases h with
  | declare _ hname => exact .declare ht List.mem_cons_self hname (by simp [Statement.literals])
  | declareValue _ hname _ _ _ hread =>
    refine .declare ht List.mem_cons_self hname fun text htext => ?_
    rw [Statement.literals] at htext
    exact (Expr.quotes_of_read hread htext).mono fun token htoken => by simp [htoken]
  | assign _ _ _ hread =>
    refine .unchanged fun text htext => ?_
    rw [Statement.literals] at htext
    exact (Expr.quotes_of_read hread htext).mono fun token htoken => by simp [htoken]
  | print => exact .unchanged (by simp [Statement.literals])
  | printValue _ hread =>
    refine .unchanged fun text htext => ?_
    rw [Statement.literals] at htext
    exact Expr.quotes_of_read hread htext

theorem of_startsLeaf (tokens : List Token) (hleaf : first.StartsLeaf)
    (ht : a.table site.table = .ok t) :
    Sourced tokens a (Statement.read site a first tokens).arena [.null] := by
  obtain harena | ⟨name, hmem, kind, hname, -, harena⟩ :=
    Statement.read_arena_of_startsLeaf tokens hleaf ht
  · rw [harena]
    exact (Sourced.refl tokens a).null
  · rw [harena]
    exact .declare ht hmem hname (by simp [Statement.literals])

end Sourced

section body

variable {site : Site} {a b : Arena} {tokens left : List Token} {body : List Statement}
variable {errors : List SyntaxError}

/-- Reading a body takes its texts from the tokens before it ends. -/
theorem BodyReads.sourced (h : BodyReads site a tokens body left b errors) (ha : a.WellFormed)
    (hi : a.Initial) {t : Table} (ht : a.table site.table = .ok t) :
    Sourced tokens a b body := by
  induction h generalizing t with
  | ended => exact .refl _ _
  | stopped => exact .refl _ _
  | blank _ _ ih => exact (ih ha hi ht).mono (List.subset_cons_self _ _)
  | closed => exact .refl _ _
  | stray _ _ _ ih => exact (ih ha hi ht).mono (List.subset_cons_self _ _)
  | @leaf site a _ token rest _ _ _ _ hleaf hread _ ih =>
    have hreads := (Statement.read_leaf_iff hleaf ht).mp ⟨hread, rfl, rfl⟩
    have hgrown := Grown.of_leafReads hreads ha hi ht
    obtain ⟨u, hu, -⟩ := hgrown.grows.own ht
    have hlater := (ih hgrown.wellFormed hgrown.initial hu).mono
      (Statement.read site a token rest).suffix.subset
    exact ((Sourced.of_leafReads hreads ht).cons hlater).mono (List.subset_cons_self _ _)
  | @leafFailed site a _ token rest _ _ _ _ hleaf _ _ _ ih =>
    have hgrown := Grown.of_startsLeaf rest hleaf ha hi ht
    obtain ⟨u, hu, -⟩ := hgrown.grows.own ht
    have hlater := (ih hgrown.wellFormed hgrown.initial hu).mono
      ((Recovery.resync_suffix ..).trans (Statement.read site a token rest).suffix).subset
    exact ((Sourced.of_startsLeaf rest hleaf ht).cons hlater).mono (List.subset_cons_self _ _)
  | leafAborted hleaf =>
    exact (Sourced.of_startsLeaf _ hleaf ht).mono (List.subset_cons_self _ _)
  | @block _ _ _ _ token _ _ _ _ _ _ _ _ _ inner ends _ ihInner ihOuter =>
    have hopened := ha.openTable_of_table ht
    have hgrown := (inner.grown hopened hi.openTable Arena.table_openTable_new).block .start
    obtain ⟨u, hu, -⟩ := hgrown.grows.own ht
    have hblock := (ihInner hopened hi.openTable Arena.table_openTable_new).block token.position ht
    have hlater := (ihOuter hgrown.wellFormed hgrown.initial hu).mono
      (ends.suffix.trans inner.suffix).subset
    exact (hblock.cons hlater).mono (List.subset_cons_self _ _)
  | blockFailed _ inner _ _ ihInner ihOuter =>
    have hopened := ha.openTable_of_table ht
    have hgrown := (inner.grown hopened hi.openTable Arena.table_openTable_new).block .start
    obtain ⟨u, hu, -⟩ := hgrown.grows.own ht
    have hblock := (ihInner hopened hi.openTable Arena.table_openTable_new).block .start ht
    have hlater := (ihOuter hgrown.wellFormed hgrown.initial hu).mono
      ((Recovery.resync_suffix ..).trans inner.suffix).subset
    exact (hblock.null.cons hlater).mono (List.subset_cons_self _ _)

end body

namespace Program

theorem sourced_ofTokens (cursor : Cursor) :
    Sourced cursor.ahead (Arena.empty.openTable none).2 (ofTokens cursor).1.arena
      (ofTokens cursor).1.root.body :=
  (bodyReads_ofTokens cursor).sourced wellFormed_rootArena initial_rootArena
    Arena.table_openTable_new

theorem built_rootArena : Arena.Built [.opening none] (Arena.empty.openTable none).2 :=
  .opening .empty (by simp)

/-- The arena of a program that was read has a history. -/
theorem exists_built_parse (lines : List String) :
    ∃ history, Arena.Built history (parse lines).program.arena := by
  unfold parse
  simp only
  split
  · exact (sourced_ofTokens _).built built_rootArena
  · exact ⟨_, built_rootArena⟩

end Program

end LineScript
