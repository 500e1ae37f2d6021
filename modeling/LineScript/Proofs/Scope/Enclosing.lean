import LineScript.Proofs.Safety

/-!
# An arena with a table around it

`Arena.enclosed` puts an empty table around all tables of an arena: it becomes the first
one and the parent of those that had none, and all others move by one. The symbols stay
where they are. Since the new table binds nothing, every name leads to the same symbol
as before (`Arena.resolve?_enclosed`), and opening a table and declaring a name do the
same in both arenas.
-/

namespace LineScript

/-- The handle of the table when another one comes first. -/
def TableId.next (id : TableId) : TableId :=
  { index := id.index + 1 }

/-- A table without names and without a parent. -/
def Table.outermost : Table :=
  { locals := [], parent := none }

/-- The table in an arena with a table around it. -/
def Table.enclosed (t : Table) : Table :=
  { t with parent := some (t.parent.elim ⟨0⟩ TableId.next) }

namespace Arena

/-- The arena with an empty table around its tables. -/
def enclosed (a : Arena) : Arena :=
  { a with tables := #[.outermost] ++ a.tables.map Table.enclosed }

variable {a : Arena} {id outer table : TableId} {t : Table} {target : SymbolId} {s : Symbol}
variable {name : String} {kind : Kind}

/-! ## Tables -/

theorem tables_enclosed (i : Nat) :
    a.enclosed.tables[i + 1]? = a.tables[i]?.map Table.enclosed := by
  simp [enclosed, Array.getElem?_append]

@[simp] theorem symbol_enclosed : a.enclosed.symbol target = a.symbol target := rfl

theorem table_enclosed_zero : a.enclosed.table ⟨0⟩ = .ok .outermost := by
  rw [table_eq_ok, enclosed, Array.getElem?_append_left Nat.zero_lt_one]
  rfl

theorem table_enclosed (ht : a.table id = .ok t) : a.enclosed.table id.next = .ok t.enclosed := by
  rw [table_eq_ok] at ht ⊢
  rw [TableId.next, tables_enclosed, ht]
  rfl

/-- A table of the larger arena is the new one or was there before. -/
theorem table_of_enclosed (ht : a.enclosed.table id = .ok t) :
    id = ⟨0⟩ ∧ t = .outermost ∨ ∃ inner u, id = inner.next ∧ a.table inner = .ok u ∧
      t = u.enclosed := by
  obtain ⟨index⟩ := id
  cases index with
  | zero =>
    rw [table_enclosed_zero] at ht
    exact .inl ⟨rfl, (Except.ok.inj ht).symm⟩
  | succ i =>
    rw [table_eq_ok, tables_enclosed] at ht
    obtain ⟨u, hu, rfl⟩ := Option.map_eq_some_iff.mp ht
    exact .inr ⟨⟨i⟩, u, rfl, table_eq_ok.mpr hu, rfl⟩

theorem Layered.enclosed (h : a.Layered) : a.enclosed.Layered := by
  intro id t p ht hp
  obtain ⟨-, rfl⟩ | ⟨inner, u, rfl, hu, rfl⟩ := table_of_enclosed ht
  · cases hp
  · cases hparent : u.parent with
    | none =>
      simp only [Table.enclosed, hparent, Option.elim_none, Option.some.injEq] at hp
      rw [← hp]
      exact Nat.succ_pos _
    | some q =>
      simp only [Table.enclosed, hparent, Option.elim_some, Option.some.injEq] at hp
      rw [← hp]
      exact Nat.succ_lt_succ (h hu hparent)

/-! ## Names -/

/-- A search that finds nothing in the new table and does not ask for parents has the same
result in both arenas. -/
theorem search_enclosed {α : Type} {f : Table → Option α} (h : a.Layered)
    (hf : ∀ t : Table, f t.enclosed = f t) (houtermost : f .outermost = none)
    (ht : a.table id = .ok t) :
    a.enclosed.search f (a.enclosed.chain id.next) = a.search f (a.chain id) := by
  -- Parents come first.
  induction hn : id.index using Nat.strongRecOn generalizing id t with
  | ind n ih =>
    rw [h.chain_eq ht, h.enclosed.chain_eq (table_enclosed ht)]
    cases hfound : f t with
    | some found =>
      rw [search_cons_of_some ht hfound,
        search_cons_of_some (table_enclosed ht) ((hf t).trans hfound)]
    | none =>
      rw [search_cons_of_none ht hfound,
        search_cons_of_none (table_enclosed ht) ((hf t).trans hfound)]
      cases hparent : t.parent with
      | none =>
        have hfirst := table_enclosed_zero (a := a)
        simp only [Table.enclosed, hparent, Option.elim_none]
        rw [h.enclosed.chain_eq hfirst, search_cons_of_none hfirst houtermost]
        rfl
      | some p =>
        simp only [Table.enclosed, hparent, Option.elim_some]
        have hlt := h ht hparent
        have hsize : p.index < a.tables.size := Nat.lt_trans hlt (index_lt_of_table ht)
        have hp : a.table p = .ok (a.tables[p.index]) :=
          table_eq_ok.mpr (Array.getElem?_eq_getElem hsize)
        exact ih _ (hn ▸ hlt) hp rfl

theorem resolve?_enclosed (h : a.Layered) (ht : a.table id = .ok t) :
    a.enclosed.resolve? id.next = a.resolve? id := by
  funext name
  have hget : a.enclosed.get id.next name = a.get id name :=
    search_enclosed h (fun _ => rfl) rfl ht
  simp only [resolve?, hget, symbol_enclosed]

theorem getLocal_enclosed (ht : a.table id = .ok t) (name : String) :
    a.enclosed.getLocal id.next name = a.getLocal id name := by
  simp only [getLocal, table_enclosed ht, ht]
  rfl

theorem Encloses.enclosed (h : a.Encloses outer id) :
    a.enclosed.Encloses outer.next id.next := by
  induction h with
  | self => exact .self
  | @parent id p t ht hp _ ih =>
    have hparent : t.enclosed.parent = some p.next := by
      simp only [Table.enclosed, hp, Option.elim_some]
    exact .parent (table_enclosed ht) hparent ih

theorem Sees.enclosed (h : a.Sees table name target kind) :
    a.enclosed.Sees table.next name target kind := by
  obtain ⟨hholds, outer, hencloses, t, ht, hfind⟩ := h
  exact ⟨hholds, outer.next, hencloses.enclosed, t.enclosed, table_enclosed ht, hfind⟩

theorem Sound.enclosed (h : a.Sound) : a.enclosed.Sound where
  layered := h.layered.enclosed
  typed _ _ hs := h.typed hs

/-! ## Changes -/

theorem openTable_enclosed :
    a.enclosed.openTable (some id.next) =
      ((a.openTable (some id)).1.next, (a.openTable (some id)).2.enclosed) := by
  simp [openTable, Arena.enclosed, TableId.next, Table.enclosed, Nat.add_comm]

theorem declare_enclosed :
    a.enclosed.declare id.next s = ((a.declare id s).1, (a.declare id s).2.enclosed) := by
  have htables : a.enclosed.tables.modify (id.index + 1)
      (fun t => t.bind s.name ⟨a.symbols.size⟩) =
        (a.declare id s).2.enclosed.tables := by
    refine Array.ext_getElem? fun i => ?_
    cases i with
    | zero =>
      have hfirst (b : Arena) : b.enclosed.tables[0]? = some .outermost :=
        table_eq_ok.mp table_enclosed_zero
      rw [Array.getElem?_modify, if_neg (Nat.succ_ne_zero _), hfirst, hfirst]
    | succ i =>
      rw [Array.getElem?_modify, tables_enclosed, tables_enclosed]
      simp only [declare, Array.getElem?_modify, Nat.add_right_cancel_iff]
      split
      · cases a.tables[i]? <;> rfl
      · rfl
  have harena : (a.enclosed.declare id.next s).2 = (a.declare id s).2.enclosed :=
    congrArg (fun tables => (⟨tables, a.symbols.push s⟩ : Arena)) htables
  exact congrArg (Prod.mk _) harena

end Arena

end LineScript
