import LineScript.Proofs.Reading.Scopes
import LineScript.Proofs.Running

/-!
# No variable is read before it is stored

A program keeps the values of its variables in its arena, so a run starts with whatever
values the arena has. They do not matter if the program was read without errors: a name is
in scope only behind its declaration, and a declaration that runs stores a value. As long as
no statement fails, two runs that start with different values therefore read the same values,
write the same, and in the end have stored in every symbol (`Executor.execute_parse_revalued`).

What statements do if none of them fails is told by `Statement.quietAll`. It speaks about
arenas and texts only. That two runs agree is shown there (`Statement.quietAll_agrees`), and a
run into a sink that refuses nothing is compared with it separately (`Executor.runRoot_follows`).
-/

namespace LineScript

/-! ## Other values -/

namespace Arena

variable {a b origin : Arena} {known more : List SymbolId} {target : SymbolId} {s : Symbol}
variable {value : Value}

theorem exists_symbol (h : target.index < a.symbols.size) : ∃ s, a.symbol target = .ok s :=
  ⟨a.symbols[target.index], symbol_eq_ok.mpr (Array.getElem?_eq_getElem h)⟩

/-- The second arena differs from the first in nothing but values, and its values are of the
kinds of their symbols. -/
structure Revalued (a b : Arena) : Prop where
  tables : b.tables = a.tables
  size : b.symbols.size = a.symbols.size
  symbol : ∀ ⦃target s⦄, a.symbol target = .ok s →
    ∃ value, value.kind = s.kind ∧ b.symbol target = .ok { s with value }

theorem Sound.revalued_self (h : a.Sound) : a.Revalued a where
  tables := rfl
  size := rfl
  symbol _ s hs := ⟨s.value, h.typed hs, hs⟩

namespace Revalued

theorem table_eq (h : a.Revalued b) (id : TableId) : b.table id = a.table id := by
  simp only [table, h.tables]

theorem contains_eq (h : a.Revalued b) (id : TableId) : b.contains id = a.contains id := by
  simp only [contains, h.tables]

theorem toExtends (h : a.Revalued b) : a.Extends b where
  table id t ht := ⟨t, (h.table_eq id).trans ht, rfl, fun _ _ hfind => hfind⟩
  symbol target s hs := by
    obtain ⟨value, -, hb⟩ := h.symbol hs
    exact ⟨_, hb, rfl, rfl⟩

theorem sound (h : a.Revalued b) (hlayered : a.Layered) : b.Sound where
  layered id t p ht hparent := hlayered ((h.table_eq id).symm.trans ht) hparent
  typed target r hr := by
    obtain ⟨s, hs⟩ := exists_symbol (h.size ▸ index_lt_of_symbol hr)
    obtain ⟨value, hkind, hb⟩ := h.symbol hs
    rw [hr] at hb
    cases hb
    exact hkind

theorem stored (h : a.Revalued b) (hs : a.symbol target = .ok s) (hkind : value.kind = s.kind) :
    a.Revalued (b.stored target value) where
  tables := h.tables
  size := by simp [Arena.stored, h.size]
  symbol other r hr := by
    obtain ⟨old, holdKind, hold⟩ := h.symbol hr
    by_cases hother : other = target
    · subst hother
      rw [hs] at hr
      cases hr
      have hnew : (b.stored other value).symbol other =
          .ok { { s with value := old } with value } := symbol_stored_self hold
      exact ⟨value, hkind, hnew⟩
    · exact ⟨old, holdKind, (symbol_stored_of_ne hother).trans hold⟩

end Revalued

/-- Both arenas differ from `origin` in nothing but values, and they have the same values for
the symbols that are known. -/
structure Agree (origin : Arena) (known : List SymbolId) (a b : Arena) : Prop where
  left : origin.Revalued a
  right : origin.Revalued b
  symbol : ∀ target ∈ known, b.symbol target = a.symbol target

namespace Agree

theorem mono (h : Agree origin more a b) (hknown : known ⊆ more) : Agree origin known a b where
  left := h.left
  right := h.right
  symbol target ht := h.symbol target (hknown ht)

/-- A symbol in which the same was stored is known. -/
theorem stored (h : Agree origin known a b) (hs : origin.symbol target = .ok s)
    (hkind : value.kind = s.kind) :
    Agree origin (target :: known) (a.stored target value) (b.stored target value) where
  left := h.left.stored hs hkind
  right := h.right.stored hs hkind
  symbol other hother := by
    obtain ⟨u, -, hu⟩ := h.left.symbol hs
    obtain ⟨v, -, hv⟩ := h.right.symbol hs
    by_cases heq : other = target
    · rw [heq, symbol_stored_self hu, symbol_stored_self hv]
    · rw [symbol_stored_of_ne heq, symbol_stored_of_ne heq]
      exact h.symbol other ((List.mem_cons.mp hother).resolve_left heq)

/-- If all symbols are known, there is no difference. -/
theorem eq_of_known (h : Agree origin known a b)
    (hall : ∀ target : SymbolId, target.index < origin.symbols.size → target ∈ known) : b = a := by
  have htables : b.tables = a.tables := h.right.tables.trans h.left.tables.symm
  have hsize : b.symbols.size = a.symbols.size := h.right.size.trans h.left.size.symm
  have hsymbols : b.symbols = a.symbols := by
    refine Array.ext hsize fun i hb ha => ?_
    have hsame := h.symbol ⟨i⟩ (hall ⟨i⟩ (h.left.size ▸ ha))
    simpa [Arena.symbol, Array.getElem?_eq_getElem ha, Array.getElem?_eq_getElem hb] using hsame
  cases a
  cases b
  simp_all

end Agree

end Arena

/-! ## Expressions -/

section eval

variable {scene other : Scene}

theorem Scene.apply_congr (h : other.position = scene.position) (a : Number) (op : Operator)
    (b : Number) : other.apply a op b = scene.apply a op b := by
  unfold apply inRange overflow
  rw [h]

mutual

theorem NumExpr.eval_congr (hposition : other.position = scene.position) : ∀ e : NumExpr,
    (∀ ref ∈ e.references, ref.read other = ref.read scene) → e.eval other = e.eval scene
  | .single term, h => Term.eval_congr hposition term h
  | .chain term op rest, h => by
    have hterm := Term.eval_congr hposition term
      fun ref href => h ref (List.mem_append_left _ href)
    have hrest := NumExpr.eval_congr hposition rest
      fun ref href => h ref (List.mem_append_right _ href)
    simp only [NumExpr.eval, hterm, hrest, Scene.apply_congr hposition]

theorem Term.eval_congr (hposition : other.position = scene.position) : ∀ e : Term,
    (∀ ref ∈ e.references, ref.read other = ref.read scene) → e.eval other = e.eval scene
  | .single factor, h => Factor.eval_congr hposition factor h
  | .chain factor op rest, h => by
    have hfactor := Factor.eval_congr hposition factor
      fun ref href => h ref (List.mem_append_left _ href)
    have hrest := Term.eval_congr hposition rest
      fun ref href => h ref (List.mem_append_right _ href)
    simp only [Term.eval, hfactor, hrest, Scene.apply_congr hposition]

theorem Factor.eval_congr (hposition : other.position = scene.position) : ∀ e : Factor,
    (∀ ref ∈ e.references, ref.read other = ref.read scene) → e.eval other = e.eval scene
  | .literal _, _ => rfl
  | .paren inner, h => NumExpr.eval_congr hposition inner h
  | .negate inner, h => by
    simp only [Factor.eval, Factor.eval_congr hposition inner h, Scene.apply_congr hposition]
  | .reference ref, h => by
    simp only [Factor.eval, Reference.readNumber, h ref (List.mem_singleton_self ref)]

end

theorem StringExpr.eval_congr (e : StringExpr)
    (h : ∀ ref ∈ e.references, ref.read other = ref.read scene) : e.eval other = e.eval scene := by
  have operand (o : StringOperand)
      (h : ∀ ref ∈ o.references, ref.read other = ref.read scene) :
      o.eval other = o.eval scene := by
    cases o with
    | literal text => rfl
    | reference ref =>
      simp only [StringOperand.eval, Reference.readString, h ref (List.mem_singleton_self ref)]
  induction e with
  | single o => exact operand o h
  | chain o rest ih =>
    simp only [StringExpr.eval, operand o fun ref href => h ref (List.mem_append_left _ href),
      ih fun ref href => h ref (List.mem_append_right _ href)]

/-- A value depends on nothing but the variables of the expression. -/
theorem Expr.eval_congr (hposition : other.position = scene.position) {e : Expr}
    (h : ∀ ref ∈ e.references, ref.read other = ref.read scene) : e.eval other = e.eval scene := by
  cases e with
  | number e => simp only [Expr.eval, e.eval_congr hposition h]
  | string e => simp only [Expr.eval, e.eval_congr h]

end eval

/-! ## Statements of which none fails -/

namespace Statement

mutual

/-- What a statement does in this arena, or why the first statement that fails stops. -/
def quiet (arena : Arena) (table : TableId) : Statement → Except Halt Deed
  | .block position inner body =>
    if arena.contains inner then quietAll arena inner body
    else .error (.error { position, cause := .missingBlock })
  | statement => statement.deed arena table

def quietAll (arena : Arena) (table : TableId) : List Statement → Except Halt Deed
  | [] => .ok { arena, texts := [] }
  | statement :: rest => do
    let first ← statement.quiet arena table
    let later ← quietAll first.arena table rest
    return { later with texts := first.texts ++ later.texts }

end

end Statement

/-- The deeds write the same and leave arenas that agree. -/
structure Deed.Agree (origin : Arena) (known : List SymbolId) (d e : Deed) : Prop where
  texts : e.texts = d.texts
  arena : Arena.Agree origin known d.arena e.arena

section agree

variable {origin a b : Arena} {known : List SymbolId} {frames : Frames Arena.Binding}
variable {table : TableId} {position : Position} {name : String} {target : SymbolId}
variable {kind : Kind} {d : Deed}

theorem Reference.read_of_revalued {ref : Reference} (h : origin.Revalued a)
    (hlayered : origin.Layered) (hsees : origin.Sees table ref.name ref.symbol kind) :
    ∃ s, a.symbol ref.symbol = .ok s ∧
      ref.read { arena := a, table, position } = .ok s.value := by
  let scene : Scene := { arena := a, table, position }
  have hthere : scene.arena.Sees scene.table ref.name ref.symbol kind := h.toExtends.sees hsees
  obtain ⟨s, hs, -, hread⟩ := Reference.read_of_sees hthere (h.sound hlayered).layered
  exact ⟨s, hs, hread⟩

/-- An expression has the same value in both arenas if the names in scope are known. -/
theorem Expr.eval_of_agree {e : Expr} (h : Arena.Agree origin known a b)
    (hlayered : origin.Layered) (hframes : frames.symbols ⊆ known) (hscoped : e.Scoped origin table)
    (hresolved : e.Resolved frames) :
    e.eval { arena := b, table, position } = e.eval { arena := a, table, position } := by
  refine Expr.eval_congr ?_ ?_
  · rfl
  · intro ref href
    obtain ⟨s, hs, hread⟩ := Reference.read_of_revalued h.left hlayered (hscoped ref href)
    obtain ⟨r, hr, hread'⟩ := Reference.read_of_revalued h.right hlayered (hscoped ref href)
    have hknown := hframes (Frames.mem_symbols_of_lookup (hresolved ref href))
    have hsame := h.symbol ref.symbol hknown
    rw [hs, hr] at hsame
    cases hsame
    rw [hread, hread']

namespace State

theorem store_of_revalued {value : Value} (h : origin.Revalued a) (hlayered : origin.Layered)
    (hsees : origin.Sees table name target value.kind) :
    store { arena := a, sink := (), position } table name target value =
      .ok { arena := a.stored target value, sink := (), position } := by
  let s : State Unit := { arena := a, sink := (), position }
  have hthere : s.arena.Sees table name target value.kind := h.toExtends.sees hsees
  exact store_eq_of_sees hthere (h.sound hlayered)

/-- Both runs store, if they have the same value to store. -/
theorem deed_store_agrees {work : Except Halt Value} (h : Arena.Agree origin known a b)
    (hlayered : origin.Layered) (hsees : origin.Sees table name target kind)
    (hkind : ∀ ⦃value⦄, work = .ok value → value.kind = kind)
    (hd : ((work >>= store { arena := a, sink := (), position } table name target).map
      fun s => { arena := s.arena, texts := [] }) = .ok d) :
    ∃ e, ((work >>= store { arena := b, sink := (), position } table name target).map
        fun s => { arena := s.arena, texts := [] }) = .ok e ∧
      d.Agree origin (target :: known) e := by
  cases work with
  | error halt => cases hd
  | ok value =>
    cases hkind rfl
    obtain ⟨s, hs, -, hkind⟩ := hsees.1
    change ((store _ table name target value).map _) = _ at hd
    rw [store_of_revalued h.left hlayered hsees] at hd
    cases hd
    refine ⟨{ arena := b.stored target value, texts := [] }, ?_, rfl, h.stored hs hkind.symm⟩
    change ((store _ table name target value).map _) = _
    rw [store_of_revalued h.right hlayered hsees]
    rfl

theorem assigned_of_agree {old : Value} {compound : Bool} {e : Expr}
    (heval : e.eval { arena := b, table, position } = e.eval { arena := a, table, position }) :
    assigned { arena := b, sink := (), position } table old compound e =
      assigned { arena := a, sink := (), position } table old compound e := by
  have hcombine (v : Value) : combine { arena := b, sink := (), position } table old v =
      combine { arena := a, sink := (), position } table old v := by
    cases old <;> cases v <;> rfl
  simp only [assigned, scene, heval, hcombine]

end State

namespace Statement

/-- The variable of a declaration becomes known. -/
theorem deed_declare_agrees {initial : Option Expr} (h : Arena.Agree origin known a b)
    (hlayered : origin.Layered) (hframes : frames.symbols ⊆ known)
    (hfits : (declare position name target kind initial).Fits origin table)
    (hresolved : (declare position name target kind initial).Resolved frames)
    (hd : (declare position name target kind initial).deed a table = .ok d) :
    ∃ e, (declare position name target kind initial).deed b table = .ok e ∧
      d.Agree origin (target :: known) e := by
  obtain ⟨hbinds, hholds, hscoped⟩ := hfits
  have hvalue : State.declared { arena := b, sink := (), position } table kind initial =
      State.declared { arena := a, sink := (), position } table kind initial := by
    cases initial with
    | none => rfl
    | some e => exact Expr.eval_of_agree h hlayered hframes (hscoped e rfl).2 (hresolved.2 e rfl)
  simp only [deed, State.declare_eq] at hd ⊢
  rw [hvalue]
  refine State.deed_store_agrees h hlayered ⟨hholds, table, .self, hbinds⟩ ?_ hd
  intro value hstored
  cases initial with
  | none =>
    cases hstored
    exact Arena.kind_initial kind
  | some e => exact (Expr.kind_of_eval hstored).trans (hscoped e rfl).1

/-- An assignment, plain or compound, changes a variable that is known. -/
theorem deed_assign_agrees {compound : Bool} {e : Expr} (h : Arena.Agree origin known a b)
    (hlayered : origin.Layered) (hframes : frames.symbols ⊆ known)
    (hfits : (assign position name target compound e).Fits origin table)
    (hresolved : (assign position name target compound e).Resolved frames)
    (hd : (assign position name target compound e).deed a table = .ok d) :
    ∃ d', (assign position name target compound e).deed b table = .ok d' ∧
      d.Agree origin known d' := by
  obtain ⟨hsees, hscoped⟩ := hfits
  obtain ⟨hlookup, hresolved⟩ := hresolved
  have hknown : target ∈ known := hframes (Frames.mem_symbols_of_lookup hlookup)
  obtain ⟨r, hr, -, hkind⟩ := h.left.toExtends.holds hsees.1
  have hr' : b.symbol target = .ok r := (h.symbol target hknown).trans hr
  have heval : e.eval { arena := b, table, position } = e.eval { arena := a, table, position } :=
    Expr.eval_of_agree h hlayered hframes hscoped hresolved
  have hold : r.value.kind = e.kind := ((h.left.sound hlayered).typed hr).trans hkind
  simp only [deed] at hd ⊢
  rw [State.assign_eq hr] at hd
  rw [State.assign_eq hr', State.assigned_of_agree heval]
  obtain ⟨d', hd', htexts, harena⟩ := State.deed_store_agrees h hlayered hsees
    (fun value hstored => State.kind_of_assigned hold hstored) hd
  exact ⟨d', hd', htexts, harena.mono (List.subset_cons_self target known)⟩

theorem deed_print_agrees {newline : Bool} {payload : Option Expr}
    (h : Arena.Agree origin known a b) (hlayered : origin.Layered)
    (hframes : frames.symbols ⊆ known) (hfits : (print position newline payload).Fits origin table)
    (hresolved : (print position newline payload).Resolved frames)
    (hd : (print position newline payload).deed a table = .ok d) :
    ∃ e, (print position newline payload).deed b table = .ok e ∧ d.Agree origin known e := by
  have htext : (payload.elim (.ok "") fun e =>
        (e.eval { arena := b, table, position }).map Value.text : Except Halt String) =
      payload.elim (.ok "") fun e =>
        (e.eval { arena := a, table, position }).map Value.text := by
    cases payload with
    | none => rfl
    | some e =>
      rw [Option.elim_some, Option.elim_some,
        Expr.eval_of_agree h hlayered hframes (hfits e rfl) (hresolved e rfl)]
  simp only [deed] at hd ⊢
  rw [htext]
  generalize (payload.elim (.ok "") fun e =>
    (e.eval { arena := a, table, position }).map Value.text : Except Halt String) = text at hd ⊢
  cases text with
  | error halt => cases hd
  | ok text =>
    cases hd
    exact ⟨_, rfl, rfl, h⟩

theorem symbols_scope (frames : Frames Arena.Binding) (statement : Statement) :
    (statement.scope frames).symbols ⊆ statement.declared ++ frames.symbols := by
  cases statement with
  | declare position name target kind initial =>
    cases frames with
    | nil => exact List.nil_subset _
    | cons frame frames => simp [scope, Frames.bind, declared]
  | null => exact List.subset_append_right ..
  | assign => exact List.subset_append_right ..
  | print => exact List.subset_append_right ..
  | block => exact List.subset_append_right ..

theorem quiet_block_of_contains {inner : TableId} {body : List Statement}
    (h : a.contains inner = true) :
    (block position inner body).quiet a table = quietAll a inner body := by
  rw [quiet, if_pos h]

theorem quietAll_cons_eq_ok {statement : Statement} {rest : List Statement} :
    quietAll a table (statement :: rest) = .ok d ↔
      ∃ first later, statement.quiet a table = .ok first ∧
        quietAll first.arena table rest = .ok later ∧
        d = { later with texts := first.texts ++ later.texts } := by
  rw [quietAll]
  cases statement.quiet a table with
  | error halt => simp [bind, Except.bind]
  | ok first =>
    cases hlater : quietAll first.arena table rest with
    | error halt => simp [bind, Except.bind, hlater]
    | ok later => simp [bind, Except.bind, pure, Except.pure, hlater, eq_comm]

mutual

/-- What is known in front of a statement is enough for it, and all that it declares is known
behind it. -/
theorem quiet_agrees (hlayered : origin.Layered) : ∀ (statement : Statement)
    {frames : Frames Arena.Binding} {known : List SymbolId} {table : TableId} {a b : Arena}
    {d : Deed}, Arena.Agree origin known a b → frames.symbols ⊆ known →
    statement.Fits origin table → statement.Resolved frames → statement.quiet a table = .ok d →
    ∃ e, statement.quiet b table = .ok e ∧ d.Agree origin (statement.declared ++ known) e
  | .null, _, _, _, _, b, _, h, _, _, _, hd => by
    cases hd
    exact ⟨{ arena := b, texts := [] }, rfl, rfl, h⟩
  | .declare .., _, _, _, _, _, _, h, hframes, hfits, hresolved, hd =>
    deed_declare_agrees h hlayered hframes hfits hresolved hd
  | .assign .., _, _, _, _, _, _, h, hframes, hfits, hresolved, hd =>
    deed_assign_agrees h hlayered hframes hfits hresolved hd
  | .print .., _, _, _, _, _, _, h, hframes, hfits, hresolved, hd =>
    deed_print_agrees h hlayered hframes hfits hresolved hd
  | .block _ inner body, frames, known, _, _, _, _, h, hframes, ⟨⟨t, ht, _⟩, hbody⟩, hresolved,
      hd => by
    have hinner := Arena.contains_of_table ht
    have hinside : Frames.symbols ([] :: frames) ⊆ known := by simpa using hframes
    rw [quiet_block_of_contains ((h.left.contains_eq inner).trans hinner)] at hd
    rw [quiet_block_of_contains ((h.right.contains_eq inner).trans hinner)]
    exact quietAll_agrees hlayered body h hinside hbody hresolved hd

theorem quietAll_agrees (hlayered : origin.Layered) : ∀ (body : List Statement)
    {frames : Frames Arena.Binding} {known : List SymbolId} {table : TableId} {a b : Arena}
    {d : Deed}, Arena.Agree origin known a b → frames.symbols ⊆ known →
    AllFit origin table body → AllResolved frames body → quietAll a table body = .ok d →
    ∃ e, quietAll b table body = .ok e ∧ d.Agree origin (declaredAll body ++ known) e
  | [], _, _, _, _, b, _, h, _, _, _, hd => by
    cases hd
    exact ⟨{ arena := b, texts := [] }, rfl, rfl, h⟩
  | statement :: rest, frames, known, _, _, _, _, h, hframes, ⟨hfits, hfitsRest⟩,
      ⟨hresolved, hresolvedRest⟩, hd => by
    obtain ⟨first, later, hfirst, hlater, rfl⟩ := quietAll_cons_eq_ok.mp hd
    obtain ⟨first', hfirst', htexts, harena⟩ :=
      quiet_agrees hlayered statement h hframes hfits hresolved hfirst
    -- A declaration brings its name into scope and its symbol to those that are known.
    have hscope : (statement.scope frames).symbols ⊆ statement.declared ++ known :=
      List.Subset.trans (symbols_scope frames statement) (List.append_subset.mpr
        ⟨List.subset_append_left .., List.subset_append_of_subset_right _ hframes⟩)
    obtain ⟨later', hlater', htextsRest, harenaRest⟩ :=
      quietAll_agrees hlayered rest harena hscope hfitsRest hresolvedRest hlater
    refine ⟨_, quietAll_cons_eq_ok.mpr ⟨first', later', hfirst', hlater', rfl⟩, ?_, ?_⟩
    · simp only [htexts, htextsRest]
    · refine harenaRest.mono ?_
      intro target ht
      simpa only [declaredAll, List.mem_append, or_assoc, or_left_comm] using ht

end

end Statement

end agree

/-! ## Every symbol is declared -/

section declared

variable {site : Site} {a b : Arena} {frames : Frames Arena.Binding} {target : SymbolId}
variable {tokens left : List Token}

theorem LeafReads.mem_declared {first : Token} {statement : Statement}
    (hread : LeafReads site a first tokens statement left b)
    (htarget : target.index < b.symbols.size) :
    target.index < a.symbols.size ∨ target ∈ statement.declared := by
  have hnew {name : String} {kind : Kind}
      (hlt : target.index < (a.declare site.table (.declared name kind)).2.symbols.size) :
      target.index < a.symbols.size ∨
        target ∈ [(a.declare site.table (.declared name kind)).1] := by
    rw [Arena.declare_symbols_size] at hlt
    obtain hlt | heq := Nat.lt_succ_iff_lt_or_eq.mp hlt
    · exact .inl hlt
    · right
      cases target
      cases heq
      exact List.mem_singleton_self _
  cases hread with
  | declare => exact hnew htarget
  | declareValue => exact hnew htarget
  | assign => exact .inl htarget
  | print => exact .inl htarget
  | printValue => exact .inl htarget

/-- Without errors the arena gets no other symbols than those of declarations in the tree. -/
theorem BodyReads.mem_declared {body : List Statement} {errors : List SyntaxError}
    (hread : BodyReads site a tokens body left b errors) (herrors : errors = [])
    (h : site.InScope a frames) (htarget : target.index < b.symbols.size) :
    target.index < a.symbols.size ∨ target ∈ Statement.declaredAll body := by
  induction hread generalizing frames with
  | ended => exact .inl htarget
  | stopped => exact .inl htarget
  | blank _ _ ih => exact ih herrors h htarget
  | closed => exact .inl htarget
  | stray => cases herrors
  | leaf hleaf hout _ ih =>
    obtain ⟨t, ht⟩ := h.exists_table
    have hstatement := (Statement.read_leaf_iff hleaf ht).mp ⟨hout, rfl, rfl⟩
    obtain hold | hlater := ih herrors (h.leaf hstatement) htarget
    · obtain hold | hfirst := hstatement.mem_declared hold
      · exact .inl hold
      · exact .inr (List.mem_append_left _ hfirst)
    · exact .inr (List.mem_append_right _ hlater)
  | leafFailed => cases herrors
  | leafAborted => cases herrors
  | block _ inner _ _ ihInner ihOuter =>
    obtain ⟨hinside, herrors⟩ := List.append_eq_nil_iff.mp herrors
    obtain hold | hlater := ihOuter herrors (h.behind inner) htarget
    · obtain hold | hbody := ihInner hinside h.inner hold
      · exact .inl hold
      · exact .inr (List.mem_append_left _ hbody)
    · exact .inr (List.mem_append_right _ hlater)
  | blockFailed => simp at herrors

end declared

/-! ## Quiet runs -/

theorem encodeAll_append (texts more : List String) :
    encodeAll (texts ++ more) = encodeAll texts ++ encodeAll more := by
  induction texts with
  | nil => exact ByteArray.empty_append.symm
  | cons text texts ih =>
    change text.toUTF8 ++ encodeAll (texts ++ more) =
      text.toUTF8 ++ encodeAll texts ++ encodeAll more
    rw [ih, ByteArray.append_assoc]

section run

variable {σ : Type} {out : Sink σ} {bytes : σ → ByteArray} {start : σ} {s : State σ}
variable {table inner : TableId} {position : Position}

namespace Effect

/-- Nothing failed. -/
def Quiet (effect : Effect σ) : Prop :=
  effect.errors = [] ∧ effect.halt = none

theorem quiet_iff {effect : Effect σ} :
    effect.Quiet ↔ effect.noted = [] ∧ Halt.fault? effect.halt = none := by
  obtain ⟨state, errors, log, halt⟩ := effect
  cases halt with
  | none => simp [Quiet, noted, Halt.errors, Halt.fault?]
  | some halt => cases halt <;> simp [Quiet, noted, Halt.errors, Halt.fault?]

/-- Nothing failed, and the deed was done by writing to a sink in the state `before`. -/
structure Does (out : Sink σ) (bytes : σ → ByteArray) (start before : σ) (effect : Effect σ)
    (d : Deed) : Prop where
  quiet : effect.Quiet
  arena : effect.state.arena = d.arena
  accepts : out.Accepts start effect.state.sink
  bytes : bytes effect.state.sink = bytes before ++ encodeAll d.texts

/-- The effect is as planned: the deed was done, or something failed. -/
def Follows (out : Sink σ) (bytes : σ → ByteArray) (start before : σ) (effect : Effect σ) :
    Except Halt Deed → Prop
  | .ok d => effect.Does out bytes start before d
  | .error _ => ¬effect.Quiet

theorem Follows.log {effect : Effect σ} {before : σ} {plan : Except Halt Deed}
    (h : effect.Follows out bytes start before plan) (log : List Event) :
    Follows out bytes start before { effect with log } plan := by
  cases plan with
  | error halt => exact h
  | ok d => exact ⟨h.quiet, h.arena, h.accepts, h.bytes⟩

end Effect

namespace Statement

variable {statement : Statement} {rest body : List Statement}

theorem quiet_runAll_cons :
    (runAll out table s (statement :: rest)).Quiet ↔
      (statement.run out table s).Quiet ∧
        (runAll out table (statement.run out table s).state rest).Quiet := by
  cases hstops : Halt.stops (statement.run out table s).halt with
  | true =>
    have hloud : ¬(statement.run out table s).Quiet := by
      intro h
      rw [h.2] at hstops
      cases hstops
    rw [runAll_of_stops hstops]
    simp [hloud]
  | false =>
    have hfault : Halt.fault? (statement.run out table s).halt = none := by
      cases hhalt : (statement.run out table s).halt with
      | none => rfl
      | some halt =>
        cases halt with
        | error e => rfl
        | fault f =>
          rw [hhalt] at hstops
          cases hstops
    rw [Effect.quiet_iff, Effect.quiet_iff, Effect.quiet_iff, noted_runAll_of_goes hstops,
      runAll_of_goes hstops, hfault, List.append_eq_nil_iff]
    simp [and_assoc]

theorem run_leaf_follows (hlossless : out.Lossless bytes start)
    (hleaf : statement.leaf? = some position) (hs : out.Accepts start s.sink) :
    (statement.run out table s).Follows out bytes start s.sink (statement.deed s.arena table) := by
  rw [run_leaf hleaf]
  cases statement.deed s.arena table with
  | error halt =>
    rintro ⟨-, hhalt⟩
    cases hhalt
  | ok d =>
    let begun : State σ := { s with position, arena := d.arena }
    have hbegun : out.Accepts start begun.sink := hs
    obtain ⟨hnone, haccepts, hbytes⟩ := State.writeAll_of_lossless hlossless hbegun d.texts
    obtain ⟨harena, -⟩ := State.writeAll_spec out begun d.texts
    exact ⟨⟨rfl, hnone⟩, harena, haccepts, hbytes⟩

/-- A block follows the plan of its statements. -/
theorem inside_follows (position : Position) (table : TableId)
    (h : (runAll out inner s body).Follows out bytes start s.sink (quietAll s.arena inner body)) :
    (inside position inner s fun s => runAll out inner s body).Follows out bytes start s.sink
      ((block position inner body).quiet s.arena table) := by
  cases hinner : s.arena.contains inner with
  | false =>
    rw [inside_of_missing hinner, quiet, if_neg (by simp [hinner])]
    rintro ⟨-, hhalt⟩
    cases hhalt
  | true =>
    rw [inside_of_contains hinner, quiet_block_of_contains hinner]
    exact h.log _

/-- A list follows its plan if its first statement does and the others do behind it. -/
theorem runAll_cons_follows
    (hfirst : (statement.run out table s).Follows out bytes start s.sink
      (statement.quiet s.arena table))
    (hrest : out.Accepts start (statement.run out table s).state.sink →
      (runAll out table (statement.run out table s).state rest).Follows out bytes start
        (statement.run out table s).state.sink
        (quietAll (statement.run out table s).state.arena table rest)) :
    (runAll out table s (statement :: rest)).Follows out bytes start s.sink
      (quietAll s.arena table (statement :: rest)) := by
  rw [quietAll]
  cases hplan : statement.quiet s.arena table with
  | error halt =>
    rw [hplan] at hfirst
    exact fun h => hfirst (quiet_runAll_cons.mp h).1
  | ok first =>
    rw [hplan] at hfirst
    have hlater := hrest hfirst.accepts
    rw [hfirst.arena] at hlater
    cases hlaterPlan : quietAll first.arena table rest with
    | error halt =>
      rw [hlaterPlan] at hlater
      simp only [bind, Except.bind, hlaterPlan]
      exact fun h => hlater (quiet_runAll_cons.mp h).2
    | ok later =>
      rw [hlaterPlan] at hlater
      simp only [bind, Except.bind, hlaterPlan]
      have hgoes : Halt.stops (statement.run out table s).halt = false := by
        rw [hfirst.quiet.2]
        rfl
      refine ⟨quiet_runAll_cons.mpr ⟨hfirst.quiet, hlater.quiet⟩, ?_, ?_, ?_⟩
      · rw [runAll_of_goes hgoes]
        exact hlater.arena
      · rw [runAll_of_goes hgoes]
        exact hlater.accepts
      · rw [runAll_of_goes hgoes]
        change bytes (runAll out table (statement.run out table s).state rest).state.sink =
          bytes s.sink ++ encodeAll (first.texts ++ later.texts)
        rw [hlater.bytes, hfirst.bytes, encodeAll_append, ByteArray.append_assoc]

mutual

theorem run_follows (hlossless : out.Lossless bytes start) : ∀ (statement : Statement)
    {s : State σ} {table : TableId}, out.Accepts start s.sink →
    (statement.run out table s).Follows out bytes start s.sink (statement.quiet s.arena table)
  | .null, _, _, hs => ⟨⟨rfl, rfl⟩, rfl, hs, ByteArray.append_empty.symm⟩
  | .declare .., _, _, hs => run_leaf_follows hlossless rfl hs
  | .assign .., _, _, hs => run_leaf_follows hlossless rfl hs
  | .print .., _, _, hs => run_leaf_follows hlossless rfl hs
  | .block position inner body, s, table, hs => by
    let begun : State σ := { s with position }
    have hbody : (runAll out inner begun body).Follows out bytes start begun.sink
        (quietAll s.arena inner body) := runAll_follows hlossless body hs
    rw [run_block_eq]
    exact (inside_follows position table hbody).log _

theorem runAll_follows (hlossless : out.Lossless bytes start) : ∀ (body : List Statement)
    {s : State σ} {table : TableId}, out.Accepts start s.sink →
    (runAll out table s body).Follows out bytes start s.sink (quietAll s.arena table body)
  | [], _, _, hs => ⟨⟨rfl, rfl⟩, rfl, hs, ByteArray.append_empty.symm⟩
  | statement :: rest, _, _, hs =>
    runAll_cons_follows (run_follows hlossless statement hs) (runAll_follows hlossless rest)

end

end Statement

end run

/-! ## Programs -/

namespace Program

variable {p : Program} {a b : Arena} {d : Deed}

/-- What a program does, or why its first statement that fails stops. -/
def quiet (p : Program) : Except Halt Deed :=
  (Statement.block p.root.position p.root.table p.root.body).quiet p.arena p.root.table

/-- Every run of the program into a sink that refuses nothing notes no errors, writes the
output, and leaves the other program. -/
def Yields (p : Program) (output : ByteArray) (last : Program) : Prop :=
  ∀ (σ : Type) (out : Sink σ) (bytes : σ → ByteArray) (sink : σ), out.Lossless bytes sink →
    ∀ x : Executor,
      let run := x.execute out p sink
      run.executor.errors = x.errors ∧ run.fault = none ∧
        bytes run.sink = bytes sink ++ output ∧ run.program = last

/-- What keeps a program from reading what it did not store: its handles are those that its
names find, and it declares every symbol of its arena. -/
structure Declares (p : Program) : Prop extends WellFormed p where
  resolved : Statement.AllResolved [[]] p.root.body
  every : ∀ target : SymbolId, target.index < p.arena.symbols.size →
    target ∈ Statement.declaredAll p.root.body

theorem declares_parse {lines : List String} (hread : (parse lines).errors = []) :
    (parse lines).program.Declares := by
  obtain ⟨hprogram, herrors⟩ := parse_of_errors_eq_nil hread
  rw [hprogram]
  generalize (Cursor.ofLines lines).1 = cursor at herrors ⊢
  refine ⟨wellFormed_ofTokens cursor, ?_, ?_⟩
  · exact (bodyReads_ofTokens cursor).resolved herrors (.outermost _)
  · intro target htarget
    obtain hold | hnew := (bodyReads_ofTokens cursor).mem_declared herrors (.outermost _) htarget
    · cases hold
    · exact hnew

theorem sound_of_revalued (hp : p.WellFormed) (ha : p.arena.Revalued a) :
    Program.Sound { p with arena := a } where
  arena := ha.sound hp.layered
  root := hp.outermost.imp fun _ ht => (ha.table_eq p.root.table).trans ht.1
  body := hp.body.mono ha.toExtends

/-- What a program does without failing does not depend on the values that it starts with. -/
theorem quiet_of_revalued (hp : p.Declares) (ha : p.arena.Revalued a) (hb : p.arena.Revalued b)
    (hd : quiet { p with arena := a } = .ok d) :
    quiet { p with arena := b } = .ok d ∧ p.arena.Revalued d.arena := by
  obtain ⟨t, ht, -⟩ := hp.outermost
  have hroot := Arena.contains_of_table ht
  have hnone : Arena.Agree p.arena [] a b := ⟨ha, hb, by simp⟩
  have hempty : Frames.symbols [[]] ⊆ [] := List.Subset.refl []
  rw [quiet, Statement.quiet_block_of_contains ((ha.contains_eq _).trans hroot)] at hd
  obtain ⟨e, he, htexts, harena⟩ := Statement.quietAll_agrees hp.layered p.root.body hnone
    hempty hp.body hp.resolved hd
  -- Nothing is known at the start, and every symbol is at the end.
  have hall : ∀ target : SymbolId, target.index < p.arena.symbols.size →
      target ∈ Statement.declaredAll p.root.body ++ [] := by
    intro target htarget
    exact List.mem_append_left [] (hp.every target htarget)
  have hsame : e = d := by
    cases d
    cases e
    cases htexts
    cases harena.eq_of_known hall
    rfl
  rw [quiet, Statement.quiet_block_of_contains ((hb.contains_eq _).trans hroot), he, hsame]
  exact ⟨rfl, harena.left⟩

end Program

namespace Executor

variable {σ : Type} {out : Sink σ} {bytes : σ → ByteArray} {sink : σ} {x : Executor}
variable {p : Program}

theorem runRoot_follows (hlossless : out.Lossless bytes sink) (x : Executor) (p : Program) :
    (runRoot out (p.start x sink) p.root).Follows out bytes sink sink p.quiet := by
  have hstatements : (runStatements out (p.start x sink) p.root).Follows out bytes sink
      sink p.quiet :=
    Statement.inside_follows p.root.position p.root.table
      (Statement.runAll_follows hlossless p.root.body (s := p.start x sink) .idle)
  cases hplan : p.quiet with
  | error halt =>
    rw [hplan] at hstatements
    intro hquiet
    cases hhalt : (runStatements out (p.start x sink) p.root).halt with
    | some halt =>
      rw [runRoot_of_halt hhalt] at hquiet
      exact hstatements hquiet
    | none =>
      rw [runRoot_of_none hhalt] at hquiet
      exact hstatements ⟨hquiet.1, hhalt⟩
  | ok d =>
    rw [hplan] at hstatements
    obtain ⟨hanswer, hbytes⟩ := hlossless.flush hstatements.accepts
    obtain ⟨hflush, haccepts⟩ := State.flush_of_accepted hanswer
    rw [runRoot_of_none hstatements.quiet.2, hflush]
    exact ⟨⟨hstatements.quiet.1, rfl⟩, hstatements.arena, hstatements.accepts.trans haccepts,
      hbytes.trans hstatements.bytes⟩

theorem yields_of_quiet {d : Deed} (h : p.quiet = .ok d) :
    p.Yields (encodeAll d.texts) { p with arena := d.arena } := by
  intro σ out bytes sink hlossless x
  have hdoes := runRoot_follows hlossless x p
  rw [h] at hdoes
  obtain ⟨hexecutor, hprogram, hsink, hfault⟩ := execute_eq out x p sink
  obtain ⟨hnoted, hnone⟩ := Effect.quiet_iff.mp hdoes.quiet
  refine ⟨?_, hfault.trans hnone, ?_, ?_⟩
  · rw [hexecutor, hnoted, List.append_nil]
  · rw [hsink]
    exact hdoes.bytes
  · rw [hprogram, hdoes.arena]

/-- A run that reports nothing did what the program does if nothing in it fails. -/
theorem quiet_of_execute (hlossless : out.Lossless bytes sink)
    (herrors : (x.execute out p sink).executor.errors = x.errors)
    (hfault : (x.execute out p sink).fault = none) : ∃ d, p.quiet = .ok d := by
  have hfollows := runRoot_follows hlossless x p
  obtain ⟨hexecutor, -, -, heffect⟩ := execute_eq out x p sink
  cases hplan : p.quiet with
  | ok d => exact ⟨d, rfl⟩
  | error halt =>
    rw [hplan] at hfollows
    rw [hexecutor] at herrors
    exact absurd (Effect.quiet_iff.mpr ⟨List.append_right_eq_self.mp herrors, heffect ▸ hfault⟩)
      hfollows

/-- Take a program that was read without errors and give its variables any values of their
kinds. If it then runs without an error into a sink that refuses nothing, it runs so with all
other values of the same kinds, writes the same, and ends with the same values. In particular
it can be run again with the values that it ended with. -/
theorem execute_parse_revalued {lines : List String} (hread : (Program.parse lines).errors = [])
    {a : Arena} (ha : (Program.parse lines).program.arena.Revalued a)
    (hlossless : out.Lossless bytes sink) (x : Executor)
    (hquiet : (x.execute out { (Program.parse lines).program with arena := a }
      sink).executor.errors = x.errors) :
    let program := (Program.parse lines).program
    let first := x.execute out { program with arena := a } sink
    ∃ output, bytes first.sink = bytes sink ++ output ∧
      (∀ b, program.arena.Revalued b →
        Program.Yields { program with arena := b } output first.program) ∧
      first.program.Yields output first.program := by
  intro program first
  have hdeclares : program.Declares := Program.declares_parse hread
  have hsound := Program.sound_of_revalued hdeclares.toWellFormed ha
  obtain ⟨-, hfault, -⟩ := execute_of_sound hsound out x sink
  obtain ⟨d, hd⟩ := quiet_of_execute hlossless hquiet hfault
  have hyields (b : Arena) (hb : program.arena.Revalued b) :
      Program.Yields { program with arena := b } (encodeAll d.texts)
        { program with arena := d.arena } :=
    yields_of_quiet (Program.quiet_of_revalued hdeclares ha hb hd).1
  obtain ⟨-, -, hbytes, hlast⟩ := hyields a ha σ out bytes sink hlossless x
  have hlast : first.program = { program with arena := d.arena } := hlast
  rw [hlast]
  exact ⟨encodeAll d.texts, hbytes, hyields,
    hyields d.arena (Program.quiet_of_revalued hdeclares ha ha hd).2⟩

/-- The outer variable is changed in the block. The inner one is declared without a value and
used by a compound assignment, which would show what was left in it. -/
theorem execute_parse_revalued_twice :
    let parsed := Program.parse ["var x number = 1", "\x7b", "var y string", "y += \"a\"",
      "println y", "x += 2", "\x7d", "print x"]
    let program := parsed.program
    let strange := (program.arena.stored ⟨0⟩ (.number (.integer 9223372036854775807))).stored ⟨1⟩
      (.string "rest")
    let first := fresh.execute Buffer.sink { program with arena := strange } Buffer.unlimited
    parsed.errors = [] ∧ program.arena.Revalued strange ∧ first.executor.errors = [] ∧
      first.sink.bytes = "a\n3".toUTF8 ∧
      (∀ b, program.arena.Revalued b →
        Program.Yields { program with arena := b } "a\n3".toUTF8 first.program) ∧
      first.program.Yields "a\n3".toUTF8 first.program := by
  intro parsed program strange first
  have hread : parsed.errors = [] := by decide +kernel
  have hx : program.arena.symbol ⟨0⟩ = .ok (.declared "x" .number) :=
    Arena.symbol_eq_ok.mpr (by decide +kernel)
  have hy : program.arena.symbol ⟨1⟩ = .ok (.declared "y" .string) :=
    Arena.symbol_eq_ok.mpr (by decide +kernel)
  have hsound : program.Sound := Program.sound_parse _
  have hstrange : program.arena.Revalued strange :=
    (hsound.arena.revalued_self.stored hx rfl).stored hy rfl
  have hquiet : first.executor.errors = [] := by decide +kernel
  obtain ⟨output, hbytes, hothers, hagain⟩ :=
    execute_parse_revalued hread hstrange Buffer.lossless_unlimited fresh hquiet
  have hfirst : first.sink.bytes = "a\n3".toUTF8 := by decide +kernel
  have houtput : output = "a\n3".toUTF8 := by
    rw [← hfirst, hbytes]
    exact ByteArray.empty_append.symm
  rw [houtput] at hothers hagain
  exact ⟨hread, hstrange, hquiet, hfirst, hothers, hagain⟩

end Executor

end LineScript
