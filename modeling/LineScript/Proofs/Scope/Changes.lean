import LineScript.Proofs.Scope.Ancestry

/-!
# What a change of an arena does

Each of the checked changes is a check and then one definite arena: `Arena.declare` after
`add`, `Arena.erased` after `delete` and `Arena.updated` after `update`. What the tables bind is
said by `Arena.bound?`, with one equation for each change, and none of the changes moves a table
to another parent (`Arena.SameParents`), so ancestries stay what they are.
-/

namespace LineScript

namespace Table

variable {t : Table} {name other : String} {target : SymbolId}

theorem find?_erase :
    (t.erase name).find? other = if other = name then none else t.find? other := by
  simp only [find?, erase, lookup_filter_ne]

theorem erase_bind : (t.bind name target).erase name = t.erase name := by
  simp [bind, erase, List.filter_append, List.filter_filter]

/-- Taking out a name that is not bound changes nothing. -/
theorem erase_eq_self (h : t.find? name = none) : t.erase name = t := by
  have hall : ∀ entry ∈ t.locals, decide (entry.1 ≠ name) = true := by
    intro entry hentry
    have hne := List.lookup_eq_none_iff.mp h entry hentry
    exact decide_eq_true fun he => by simp [he] at hne
  rw [erase, List.filter_eq_self.mpr hall]

end Table

namespace Arena

variable {a b : Arena} {id c : TableId} {t : Table} {target new : SymbolId} {s : Symbol}
variable {name : String} {parent : Option TableId} {found : Bool} {f : Symbol → Symbol}
variable {chain : List TableId}

/-! ## Checked changes -/

/-- The arena without the name in the table. -/
def erased (a : Arena) (id : TableId) (name : String) : Arena :=
  { a with tables := a.tables.modify id.index fun t => t.erase name }

/-- The arena with the symbol changed in place. -/
def updated (a : Arena) (target : SymbolId) (f : Symbol → Symbol) : Arena :=
  { a with symbols := a.symbols.modify target.index f }

theorem exists_table_iff : (∃ t, a.table id = .ok t) ↔ a.contains id = true :=
  ⟨fun ⟨_, ht⟩ => contains_of_table ht, exists_table_of_contains⟩

theorem add_eq_ok :
    a.add id s = .ok (new, b) ↔ a.contains id = true ∧ a.declare id s = (new, b) := by
  rw [← exists_table_iff]
  cases ht : a.table id <;> simp [add, ht, bind, Except.bind, pure, Except.pure]

theorem delete_eq_ok :
    a.delete id name = .ok (found, b) ↔
      a.contains id = true ∧ (a.bound? name id).isSome = found ∧ a.erased id name = b := by
  rw [← exists_table_iff]
  cases ht : a.table id with
  | error e => simp [delete, ht, bind, Except.bind]
  | ok t =>
    rw [bound?_of_table ht]
    simp [delete, erased, ht, bind, Except.bind, pure, Except.pure]

theorem update_eq_ok :
    a.update target f = .ok b ↔ target.index < a.symbols.size ∧ a.updated target f = b := by
  cases hs : a.symbol target with
  | ok s =>
    have hlt := index_lt_of_symbol hs
    simp [update, updated, hs, hlt, bind, Except.bind, pure, Except.pure]
  | error e =>
    have hge : ¬ target.index < a.symbols.size := by
      intro hlt
      have hok : a.symbol target = .ok a.symbols[target.index] :=
        symbol_eq_ok.mpr (Array.getElem?_eq_getElem hlt)
      rw [hs] at hok
      cases hok
    simp [update, hs, hge, bind, Except.bind]

/-! ## What tables bind -/

theorem index_ne_of_ne (h : id ≠ c) : c.index ≠ id.index := by
  intro e
  cases id
  cases c
  exact h (by simpa using e.symm)

@[simp] theorem bound?_openTable : (a.openTable parent).2.bound? name id = a.bound? name id := by
  simp only [bound?, openTable, Array.getElem?_push]
  split
  case isTrue h => simp [h, Table.find?]
  case isFalse => rfl

theorem bound?_declare (hc : a.contains c = true) :
    (a.declare c s).2.bound? name id =
      if name = s.name ∧ id = c then some (a.declare c s).1 else a.bound? name id := by
  obtain ⟨t, ht⟩ := exists_table_of_contains hc
  by_cases hid : id = c
  · subst hid
    rw [bound?_of_table (table_declare_self ht), bound?_of_table ht, Table.find?_bind]
    simp only [and_true]
  · simp only [hid, and_false, if_false, bound?, declare, Array.getElem?_modify,
      if_neg (index_ne_of_ne hid)]

theorem bound?_erased {gone : String} :
    (a.erased c gone).bound? name id =
      if name = gone ∧ id = c then none else a.bound? name id := by
  by_cases hid : id = c
  · subst hid
    simp only [bound?, erased, Array.getElem?_modify, if_true, and_true]
    cases a.tables[id.index]? with
    | none => simp
    | some t => simpa using Table.find?_erase
  · simp only [hid, and_false, if_false, bound?, erased, Array.getElem?_modify,
      if_neg (index_ne_of_ne hid)]

@[simp] theorem bound?_updated : (a.updated target f).bound? name id = a.bound? name id := rfl

/-! ## Parents stay -/

/-- The arenas have the same tables, as far as parents go. -/
def SameParents (a b : Arena) : Prop :=
  ∀ i : Nat, b.tables[i]?.map Table.parent = a.tables[i]?.map Table.parent

theorem sameParents_declare : a.SameParents (a.declare c s).2 := by
  intro i
  simp only [declare, Array.getElem?_modify]
  split
  · simp [Function.comp_def]
  · rfl

theorem sameParents_erased : a.SameParents (a.erased c name) := by
  intro i
  simp only [erased, Array.getElem?_modify]
  split
  · simp [Function.comp_def, Table.erase]
  · rfl

theorem sameParents_updated : a.SameParents (a.updated target f) :=
  fun _ => rfl

namespace SameParents

theorem symm (h : a.SameParents b) : b.SameParents a :=
  fun i => (h i).symm

theorem exists_table (h : a.SameParents b) (ht : a.table id = .ok t) :
    ∃ u, b.table id = .ok u ∧ u.parent = t.parent := by
  have hparent := h id.index
  rw [table_eq_ok.mp ht, Option.map_some, Option.map_eq_some_iff] at hparent
  obtain ⟨u, hu, hup⟩ := hparent
  exact ⟨u, table_eq_ok.mpr hu, hup⟩

theorem contains (h : a.SameParents b) (hid : a.contains id = true) : b.contains id = true := by
  obtain ⟨t, ht⟩ := exists_table_of_contains hid
  obtain ⟨u, hu, -⟩ := h.exists_table ht
  exact contains_of_table hu

theorem ancestry (h : a.SameParents b) (hchain : a.Ancestry id chain) : b.Ancestry id chain := by
  induction hchain with
  | outermost ht hp =>
    obtain ⟨u, hu, hup⟩ := h.exists_table ht
    exact .outermost hu (hup.trans hp)
  | inner ht hp _ ih =>
    obtain ⟨u, hu, hup⟩ := h.exists_table ht
    exact .inner hu (hup.trans hp) ih

theorem encloses (h : a.SameParents b) {outer : TableId} (hencloses : a.Encloses outer id) :
    b.Encloses outer id := by
  induction hencloses with
  | self => exact .self
  | parent ht hp _ ih =>
    obtain ⟨u, hu, hup⟩ := h.exists_table ht
    exact .parent hu (hup.trans hp) ih

theorem rooted (h : a.SameParents b) (ha : a.Rooted) : b.Rooted where
  linked u hmem p hp := by
    obtain ⟨i, hi⟩ := Array.mem_iff_getElem?.mp (Array.mem_toList_iff.mp hmem)
    have hu : b.table ⟨i⟩ = .ok u := table_eq_ok.mpr hi
    obtain ⟨t, ht, htp⟩ := h.symm.exists_table hu
    exact h.contains (ha.linked.contains_parent ht (htp.trans hp))
  acyclic id u p hu hp hencloses := by
    obtain ⟨t, ht, htp⟩ := h.symm.exists_table hu
    exact ha.acyclic ht (htp.trans hp) (h.symm.encloses hencloses)

end SameParents

end Arena

end LineScript
