import LineScript.Proofs.Scope.Chain

/-!
# Growing arenas

Reading a program only adds to its arena. `Arena.Grows` records how far the
additions of one block reach: new tables, new symbols, and new names in the block's
own table, while every other table stays as it was. `Arena.Extends` keeps of this
what a handle relies on; it also holds between the arenas before and after a run,
where the values of symbols change.
-/

namespace LineScript.Arena

variable {a b c : Arena} {id table inner : TableId} {t u : Table} {parent : Option TableId}
variable {target : SymbolId} {s : Symbol} {name : String} {kind : Kind}

/-! ## What opening and declaring do -/

theorem index_lt_of_table (ht : a.table id = .ok t) : id.index < a.tables.size :=
  (Array.getElem?_eq_some_iff.mp (table_eq_ok.mp ht)).1

theorem index_lt_of_symbol (hs : a.symbol target = .ok s) : target.index < a.symbols.size :=
  (Array.getElem?_eq_some_iff.mp (symbol_eq_ok.mp hs)).1

theorem contains_of_table (ht : a.table id = .ok t) : a.contains id = true := by
  simpa [contains] using index_lt_of_table ht

@[simp] theorem openTable_index : (a.openTable parent).1.index = a.tables.size := rfl

@[simp] theorem openTable_symbols : (a.openTable parent).2.symbols = a.symbols := rfl

@[simp] theorem openTable_size : (a.openTable parent).2.tables.size = a.tables.size + 1 := by
  simp [openTable]

theorem table_openTable_new :
    (a.openTable parent).2.table (a.openTable parent).1 = .ok { locals := [], parent } := by
  simp [openTable]

theorem table_openTable_of_table (ht : a.table id = .ok t) :
    (a.openTable parent).2.table id = .ok t := by
  have hid := index_lt_of_table ht
  rw [table_eq_ok] at ht ⊢
  simpa [openTable, Array.getElem?_push, Nat.ne_of_lt hid] using ht

/-- A table of the larger arena is the new one or was there before. -/
theorem table_of_openTable (ht : (a.openTable parent).2.table id = .ok t) :
    a.table id = .ok t ∨ id = (a.openTable parent).1 ∧ t = { locals := [], parent } := by
  rw [table_eq_ok] at ht ⊢
  simp only [openTable, Array.getElem?_push] at ht
  split at ht
  case isTrue h =>
    refine .inr ⟨?_, (Option.some.inj ht).symm⟩
    cases id
    cases h
    rfl
  case isFalse => exact .inl ht

@[simp] theorem declare_index : (a.declare id s).1.index = a.symbols.size := rfl

@[simp] theorem declare_tables_size : (a.declare id s).2.tables.size = a.tables.size := by
  simp [declare]

@[simp] theorem declare_symbols_size : (a.declare id s).2.symbols.size = a.symbols.size + 1 := by
  simp [declare]

theorem table_declare_self (ht : a.table id = .ok t) :
    (a.declare id s).2.table id = .ok (t.bind s.name (a.declare id s).1) := by
  rw [table_eq_ok] at ht ⊢
  simp [declare, Array.getElem?_modify, ht]

theorem table_declare_of_ne (h : table ≠ id) : (a.declare id s).2.table table = a.table table := by
  have hne : id.index ≠ table.index := by
    intro e
    cases table
    cases id
    exact h (by simpa using e.symm)
  simp only [Arena.table, declare, Array.getElem?_modify, if_neg hne]

theorem symbol_declare_new : (a.declare id s).2.symbol (a.declare id s).1 = .ok s := by
  simp [declare]

theorem symbol_declare_of_symbol {r : Symbol} (hr : a.symbol target = .ok r) :
    (a.declare id s).2.symbol target = .ok r := by
  have ht := index_lt_of_symbol hr
  rw [symbol_eq_ok] at hr ⊢
  simpa [declare, Array.getElem?_push, Nat.ne_of_lt ht] using hr

/-- A symbol of the larger arena is the new one or was there before. -/
theorem symbol_of_declare {r : Symbol} (hr : (a.declare id s).2.symbol target = .ok r) :
    a.symbol target = .ok r ∨ r = s := by
  rw [symbol_eq_ok] at hr ⊢
  simp only [declare, Array.getElem?_push] at hr
  split at hr
  · exact .inr (Option.some.inj hr).symm
  · exact .inl hr

/-! ## Extension -/

/-- The second arena has every table and symbol of the first, with the same parent
or the same name and kind, and every binding. -/
structure Extends (a b : Arena) : Prop where
  table : ∀ ⦃id t⦄, a.table id = .ok t → ∃ u, b.table id = .ok u ∧ u.parent = t.parent ∧
    ∀ ⦃name target⦄, t.find? name = some target → u.find? name = some target
  symbol : ∀ ⦃target s⦄, a.symbol target = .ok s →
    ∃ r, b.symbol target = .ok r ∧ r.name = s.name ∧ r.kind = s.kind

namespace Extends

theorem refl (a : Arena) : a.Extends a where
  table _ t ht := ⟨t, ht, rfl, fun _ _ h => h⟩
  symbol _ s hs := ⟨s, hs, rfl, rfl⟩

theorem trans (hab : a.Extends b) (hbc : b.Extends c) : a.Extends c where
  table id t ht := by
    obtain ⟨u, hu, hup, hub⟩ := hab.table ht
    obtain ⟨v, hv, hvp, hvb⟩ := hbc.table hu
    exact ⟨v, hv, hvp.trans hup, fun _ _ h => hvb (hub h)⟩
  symbol target s hs := by
    obtain ⟨r, hr, hrn, hrk⟩ := hab.symbol hs
    obtain ⟨q, hq, hqn, hqk⟩ := hbc.symbol hr
    exact ⟨q, hq, hqn.trans hrn, hqk.trans hrk⟩

theorem encloses (h : a.Extends b) {outer : TableId} (he : a.Encloses outer id) :
    b.Encloses outer id := by
  induction he with
  | self => exact .self
  | parent ht hp _ ih =>
    obtain ⟨u, hu, hup, -⟩ := h.table ht
    exact .parent hu (hup.trans hp) ih

end Extends

/-- The symbol has this name and kind. -/
def Holds (a : Arena) (target : SymbolId) (name : String) (kind : Kind) : Prop :=
  ∃ s, a.symbol target = .ok s ∧ s.name = name ∧ s.kind = kind

/-- The table binds the name to the symbol. -/
def Binds (a : Arena) (table : TableId) (name : String) (target : SymbolId) : Prop :=
  ∃ t, a.table table = .ok t ∧ t.find? name = some target

/-- The symbol has this name and kind, and some table on the way from `table` binds
the name to it. -/
def Sees (a : Arena) (table : TableId) (name : String) (target : SymbolId) (kind : Kind) : Prop :=
  a.Holds target name kind ∧ ∃ outer, a.Encloses outer table ∧ a.Binds outer name target

theorem Extends.holds (h : a.Extends b) (hh : a.Holds target name kind) :
    b.Holds target name kind := by
  obtain ⟨s, hs, hn, hk⟩ := hh
  obtain ⟨r, hr, hrn, hrk⟩ := h.symbol hs
  exact ⟨r, hr, hrn.trans hn, hrk.trans hk⟩

theorem Extends.binds (h : a.Extends b) (hb : a.Binds table name target) :
    b.Binds table name target := by
  obtain ⟨t, ht, hf⟩ := hb
  obtain ⟨u, hu, -, hub⟩ := h.table ht
  exact ⟨u, hu, hub hf⟩

theorem Extends.sees (h : a.Extends b) (hs : a.Sees table name target kind) :
    b.Sees table name target kind := by
  obtain ⟨hh, outer, he, hb⟩ := hs
  exact ⟨h.holds hh, outer, h.encloses he, h.binds hb⟩

theorem Sees.isVisible (h : a.Sees table name target kind) (ha : a.Layered) :
    a.isVisible table target = .ok true := by
  obtain ⟨⟨s, hs, rfl, -⟩, outer, he, t, ht, hf⟩ := h
  exact isVisible_of_encloses ha he ht hs hf

/-! ## Growth -/

/-- The second arena has all that the first has, and what is new in a table of the
first stands in the given one. -/
structure Grows (table : TableId) (a b : Arena) : Prop where
  tables : a.tables.size ≤ b.tables.size
  symbols : a.symbols.size ≤ b.symbols.size
  other : ∀ ⦃id t⦄, id ≠ table → a.table id = .ok t → b.table id = .ok t
  own : ∀ ⦃t⦄, a.table table = .ok t → ∃ u, b.table table = .ok u ∧ u.parent = t.parent ∧
    ∀ ⦃name target⦄, t.find? name = some target → u.find? name = some target
  symbol : ∀ ⦃target s⦄, a.symbol target = .ok s → b.symbol target = .ok s

namespace Grows

theorem refl (table : TableId) (a : Arena) : a.Grows table a where
  tables := Nat.le_refl _
  symbols := Nat.le_refl _
  other _ _ _ ht := ht
  own t ht := ⟨t, ht, rfl, fun _ _ h => h⟩
  symbol _ _ hs := hs

theorem trans (hab : a.Grows table b) (hbc : b.Grows table c) : a.Grows table c where
  tables := Nat.le_trans hab.tables hbc.tables
  symbols := Nat.le_trans hab.symbols hbc.symbols
  other _ _ hne ht := hbc.other hne (hab.other hne ht)
  own t ht := by
    obtain ⟨u, hu, hup, hub⟩ := hab.own ht
    obtain ⟨v, hv, hvp, hvb⟩ := hbc.own hu
    exact ⟨v, hv, hvp.trans hup, fun _ _ h => hvb (hub h)⟩
  symbol _ _ hs := hbc.symbol (hab.symbol hs)

theorem toExtends (h : a.Grows table b) : a.Extends b where
  table id t ht := by
    by_cases hid : id = table
    · subst hid
      exact h.own ht
    · exact ⟨t, h.other hid ht, rfl, fun _ _ hf => hf⟩
  symbol _ s hs := ⟨s, h.symbol hs, rfl, rfl⟩

/-- What happens in a newly opened table leaves the tables that were there alone. -/
theorem table_of_opened (h : (a.openTable parent).2.Grows (a.openTable parent).1 b)
    (ht : a.table id = .ok t) : b.table id = .ok t := by
  refine h.other ?_ (table_openTable_of_table ht)
  intro hid
  have hlt := index_lt_of_table ht
  rw [hid, openTable_index] at hlt
  exact Nat.lt_irrefl _ hlt

theorem of_opened (h : (a.openTable parent).2.Grows (a.openTable parent).1 b)
    (table : TableId) : a.Grows table b where
  tables := by
    have hsize := h.tables
    rw [openTable_size] at hsize
    omega
  symbols := h.symbols
  other _ _ _ ht := h.table_of_opened ht
  own t ht := ⟨t, h.table_of_opened ht, rfl, fun _ _ hf => hf⟩
  symbol _ _ hs := h.symbol hs

/-- Declaring a name that the table does not bind yet takes no binding away. -/
theorem declare (hfree : a.getLocal table s.name = .ok none) :
    a.Grows table (a.declare table s).2 where
  tables := Nat.le_of_eq declare_tables_size.symm
  symbols := by simp
  other id t hne ht := by rw [table_declare_of_ne hne, ht]
  own t ht := by
    refine ⟨_, table_declare_self ht, rfl, ?_⟩
    intro name target hf
    have hnone : t.find? s.name = none := (getLocal_eq_ok ht).mp hfree
    rw [Table.find?_bind, if_neg]
    · exact hf
    · rintro rfl
      rw [hnone] at hf
      cases hf
  symbol _ _ hs := symbol_declare_of_symbol hs

end Grows

/-! ## Well-formed arenas -/

/-- Parents come first, and a name leads to a symbol of that name. -/
structure WellFormed (a : Arena) : Prop where
  layered : a.Layered
  named : ∀ ⦃id t name target⦄, a.table id = .ok t → t.find? name = some target →
    ∃ s, a.symbol target = .ok s ∧ s.name = name

namespace WellFormed

theorem empty : Arena.empty.WellFormed where
  layered id t p ht := by simp [Arena.empty] at ht
  named id t name target ht := by simp [Arena.empty] at ht

theorem openTable (h : a.WellFormed) (hp : ∀ p, parent = some p → a.contains p = true) :
    (a.openTable parent).2.WellFormed where
  layered id t p ht htp := by
    obtain hold | ⟨rfl, rfl⟩ := table_of_openTable ht
    · exact h.layered hold htp
    · simpa [contains] using hp p htp
  named id t name target ht hf := by
    obtain hold | ⟨-, rfl⟩ := table_of_openTable ht
    · exact h.named hold hf
    · simp [Table.find?] at hf

theorem openTable_of_table (h : a.WellFormed) (ht : a.table table = .ok t) :
    (a.openTable (some table)).2.WellFormed := by
  refine h.openTable ?_
  rintro _ ⟨⟩
  exact contains_of_table ht

theorem declare (h : a.WellFormed) (ht : a.table table = .ok t) :
    (a.declare table s).2.WellFormed where
  layered id u p hu hup := by
    by_cases hid : id = table
    · subst hid
      rw [table_declare_self ht] at hu
      cases hu
      exact h.layered ht hup
    · rw [table_declare_of_ne hid] at hu
      exact h.layered hu hup
  named id u name target hu hf := by
    by_cases hid : id = table
    · subst hid
      rw [table_declare_self ht] at hu
      cases hu
      rw [Table.find?_bind] at hf
      split at hf
      case isTrue hname =>
        cases hf
        exact ⟨s, symbol_declare_new, hname.symm⟩
      case isFalse =>
        obtain ⟨r, hr, hrn⟩ := h.named ht hf
        exact ⟨r, symbol_declare_of_symbol hr, hrn⟩
    · rw [table_declare_of_ne hid] at hu
      obtain ⟨r, hr, hrn⟩ := h.named hu hf
      exact ⟨r, symbol_declare_of_symbol hr, hrn⟩

/-- A name that a reader resolves is seen. -/
theorem sees_of_resolve? (h : a.WellFormed) {binding : Binding}
    (hr : a.resolve? table name = some binding) :
    a.Sees table name binding.symbol binding.kind := by
  unfold resolve? at hr
  split at hr
  case h_2 => cases hr
  case h_1 target hget =>
    obtain ⟨outer, t, he, ht, hf⟩ := exists_of_get hget
    obtain ⟨s, hs, hn⟩ := h.named ht hf
    rw [hs] at hr
    cases hr
    exact ⟨⟨s, hs, hn, rfl⟩, outer, he, t, ht, hf⟩

end WellFormed

/-- No symbol was stored to. -/
def Initial (a : Arena) : Prop :=
  ∀ ⦃target s⦄, a.symbol target = .ok s → s.value = s.kind.initial

theorem Initial.openTable (h : a.Initial) : (a.openTable parent).2.Initial :=
  fun _ _ hs => h hs

theorem Initial.declare (h : a.Initial) :
    (a.declare table (.declared name kind)).2.Initial := by
  intro target s hs
  obtain hold | rfl := symbol_of_declare hs
  · exact h hold
  · rfl

end LineScript.Arena
