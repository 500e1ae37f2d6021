import LineScript.Proofs.WellFormed

/-!
# Scopes while reading

A reader looks names up in the arena. The frames of `Site.InScope` show the same
names as a plain stack, and each step of a reading moves the stack as one expects:
a declaration binds its name, a block pushes a frame and drops it again.

The trees of a reading without errors can therefore be judged by names alone
(`BodyReads.resolved`): every handle in them is the one that its name finds in the
frames at that place.
-/

namespace LineScript

/-- The frames list what is in scope at the site. -/
structure Site.InScope (site : Site) (a : Arena) (frames : Frames Arena.Binding) : Prop where
  wellFormed : a.WellFormed
  initial : a.Initial
  mirrors : a.Mirrors (some site.table) frames

/-- The kinds of the names in the frames. -/
def Frames.kinds (frames : Frames Arena.Binding) : Frames Kind :=
  frames.map Arena.Binding.kind

@[simp] theorem Frames.kinds_bind {frames : Frames Arena.Binding} {name : String}
    {b : Arena.Binding} : (frames.bind name b).kinds = frames.kinds.bind name b.kind :=
  Frames.map_bind

namespace Statement

/-- The frames behind a statement: a declaration is seen by what follows in its block. -/
def scope (frames : Frames Arena.Binding) : Statement → Frames Arena.Binding
  | .declare _ name symbol kind _ => frames.bind name { symbol, kind }
  | _ => frames

end Statement

/-! ## Steps of a reading -/

namespace Site.InScope

variable {site : Site} {a b : Arena} {frames : Frames Arena.Binding}
variable {first : Token} {tokens left : List Token} {statement : Statement}

theorem exists_table (h : site.InScope a frames) : ∃ t, a.table site.table = .ok t := by
  cases h.mirrors with
  | cons ht => exact ⟨_, ht⟩

theorem resolve?_eq (h : site.InScope a frames) (name : String) :
    (site.context a).resolve? name = frames.lookup name :=
  h.mirrors.resolve?_eq h.wellFormed

theorem kinds_eq (h : site.InScope a frames) : (site.context a).kinds = frames.kinds.lookup := by
  funext name
  rw [Context.kinds, h.resolve?_eq, Frames.kinds, Frames.lookup_map]

/-- A name is free to be declared exactly if the top frame does not bind it. -/
theorem getLocal_eq_none_iff (h : site.InScope a frames) {name : String} :
    a.getLocal site.table name = .ok none ↔ frames.kinds.top? name = none := by
  rw [h.mirrors.getLocal_eq_none_iff h.wellFormed, Frames.kinds, Frames.top?_map,
    Option.map_eq_none_iff]

theorem outermost (stop : Position) :
    (Site.outermost stop).InScope (Arena.empty.openTable none).2 [[]] where
  wellFormed := Program.wellFormed_rootArena
  initial := Program.initial_rootArena
  mirrors := .cons Arena.table_openTable_new (fun _ => rfl) .nil

theorem leaf (h : site.InScope a frames) (hread : LeafReads site a first tokens statement left b) :
    site.InScope b (statement.scope frames) := by
  obtain ⟨t, ht⟩ := h.exists_table
  have hgrown := Grown.of_leafReads hread h.wellFormed h.initial ht
  refine ⟨hgrown.wellFormed, hgrown.initial, ?_⟩
  cases hread with
  | declare => exact h.mirrors.declare h.wellFormed
  | declareValue => exact h.mirrors.declare h.wellFormed
  | assign => exact h.mirrors
  | print => exact h.mirrors
  | printValue => exact h.mirrors

theorem inner (h : site.InScope a frames) :
    (site.inner (a.openTable (some site.table)).1).InScope (a.openTable (some site.table)).2
      ([] :: frames) := by
  obtain ⟨t, ht⟩ := h.exists_table
  exact ⟨h.wellFormed.openTable_of_table ht, h.initial.openTable, h.mirrors.openTable h.wellFormed⟩

/-- Behind a block the frames are those in front of it. -/
theorem behind {body : List Statement} {errors : List SyntaxError} (h : site.InScope a frames)
    (hbody : BodyReads (site.inner (a.openTable (some site.table)).1)
      (a.openTable (some site.table)).2 tokens body left b errors) : site.InScope b frames := by
  have hgrown := hbody.grown h.inner.wellFormed h.inner.initial Arena.table_openTable_new
  exact ⟨hgrown.wellFormed, hgrown.initial, h.mirrors.of_opened h.wellFormed hgrown.grows⟩

end Site.InScope

/-! ## Resolved trees -/

/-- The variables of the expression are those that their names find. -/
def Expr.Resolved (frames : Frames Arena.Binding) (e : Expr) : Prop :=
  ∀ ref ∈ e.references, frames.lookup ref.name = some { symbol := ref.symbol, kind := e.kind }

namespace Statement

mutual

/-- The handles of the statement are those that its names find, if it stands where
the frames are in scope. -/
def Resolved (frames : Frames Arena.Binding) : Statement → Prop
  | .null => True
  | .declare _ name _ _ initial =>
    frames.top? name = none ∧ ∀ e ∈ initial, e.Resolved frames
  | .assign _ name symbol _ e =>
    frames.lookup name = some { symbol, kind := e.kind } ∧ e.Resolved frames
  | .print _ _ payload => ∀ e ∈ payload, e.Resolved frames
  | .block _ _ body => AllResolved ([] :: frames) body

def AllResolved (frames : Frames Arena.Binding) : List Statement → Prop
  | [] => True
  | statement :: rest => statement.Resolved frames ∧ AllResolved (statement.scope frames) rest

end

end Statement

section resolved

variable {site : Site} {a b : Arena} {frames : Frames Arena.Binding}
variable {first : Token} {tokens left : List Token} {statement : Statement}

theorem Expr.resolved_of_read {kind : Kind} {e : Expr} (h : site.InScope a frames)
    (hread : (Expr.read (site.context a) kind tokens).outcome = .ok e) :
    e.kind = kind ∧ e.Resolved frames := by
  obtain ⟨-, -, ⟨rfl, hresolves⟩, -⟩ := Expr.read_sound _ kind tokens hread
  refine ⟨rfl, ?_⟩
  intro ref href
  rw [← h.resolve?_eq, hresolves ref href]

theorem LeafReads.resolved (hread : LeafReads site a first tokens statement left b)
    (h : site.InScope a frames) : statement.Resolved frames := by
  have hfree {name : String} (hlocal : a.getLocal site.table name = .ok none) :
      frames.top? name = none := (h.mirrors.getLocal_eq_none_iff h.wellFormed).mp hlocal
  cases hread with
  | declare _ _ _ hlocal => exact ⟨hfree hlocal, by simp⟩
  | declareValue _ _ _ hlocal _ hvalue =>
    refine ⟨hfree hlocal, ?_⟩
    rintro e ⟨⟩
    exact (Expr.resolved_of_read h hvalue).2
  | assign _ htarget _ hvalue =>
    obtain ⟨hkind, hresolved⟩ := Expr.resolved_of_read h hvalue
    refine ⟨?_, hresolved⟩
    rw [← h.resolve?_eq, hkind]
    exact htarget
  | print => simp [Statement.Resolved]
  | printValue _ hvalue =>
    rintro e ⟨⟩
    exact (Expr.resolved_of_read h hvalue).2

/-- Without errors the whole tree is resolved. -/
theorem BodyReads.resolved {body : List Statement} {errors : List SyntaxError}
    (hread : BodyReads site a tokens body left b errors) (herrors : errors = [])
    (h : site.InScope a frames) : Statement.AllResolved frames body := by
  induction hread generalizing frames with
  | ended => trivial
  | stopped => trivial
  | blank _ _ ih => exact ih herrors h
  | closed => trivial
  | stray => cases herrors
  | leaf hleaf hout _ ih =>
    obtain ⟨t, ht⟩ := h.exists_table
    have hstatement := (Statement.read_leaf_iff hleaf ht).mp ⟨hout, rfl, rfl⟩
    exact ⟨hstatement.resolved h, ih herrors (h.leaf hstatement)⟩
  | leafFailed => cases herrors
  | leafAborted => cases herrors
  | block _ inner _ _ ihInner ihOuter =>
    obtain ⟨hinside, herrors⟩ := List.append_eq_nil_iff.mp herrors
    exact ⟨ihInner hinside h.inner, ihOuter herrors (h.behind inner)⟩
  | blockFailed => simp at herrors

end resolved

end LineScript
