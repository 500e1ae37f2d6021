import LineScript.Scope.Arena

/-!
# Chains of tables

A lookup walks a list that `Arena.chain` cuts off after as many tables as there
are. `Arena.Encloses` says without a bound that one table is met on the way from
another. As long as every table was opened after its parent the bound is never
felt: a lookup then looks into the table and goes on with the lookup in the parent.
-/

namespace LineScript

/-- Entries for other keys are found as before. -/
theorem lookup_filter_ne {α β : Type} [DecidableEq α] [BEq α] [LawfulBEq α] {key other : α}
    (entries : List (α × β)) :
    (entries.filter fun entry => entry.1 ≠ key).lookup other =
      if other = key then none else entries.lookup other := by
  induction entries with
  | nil => simp
  | cons entry entries ih =>
    obtain ⟨first, value⟩ := entry
    by_cases hkey : first = key
    · subst hkey
      by_cases h : other = first
      · subst h
        simpa using ih
      · simpa [List.lookup_cons, beq_eq_false_iff_ne.mpr h, h] using ih
    · by_cases h : other = first
      · subst h
        simp [hkey]
      · simpa [List.lookup_cons, beq_eq_false_iff_ne.mpr h, hkey] using ih

namespace Table

variable {t : Table} {name other : String} {id : SymbolId}

/-- A binding hides what the name led to before and touches no other name. -/
@[simp] theorem find?_bind :
    (t.bind name id).find? other = if other = name then some id else t.find? other := by
  simp only [find?, bind, erase, List.lookup_append, lookup_filter_ne]
  by_cases h : other = name
  · simp [h]
  · simp [h, List.lookup_cons, beq_eq_false_iff_ne.mpr h]

@[simp] theorem bind_parent : (t.bind name id).parent = t.parent := rfl

end Table

namespace Arena

variable {a : Arena} {id outer : TableId} {p : TableId} {t : Table} {name : String}
variable {target : SymbolId} {s : Symbol}

@[simp] theorem table_eq_ok : a.table id = .ok t ↔ a.tables[id.index]? = some t := by
  unfold table
  split <;> simp_all

@[simp] theorem symbol_eq_ok : a.symbol target = .ok s ↔ a.symbols[target.index]? = some s := by
  unfold symbol
  split <;> simp_all

/-- The table `outer` is met on the way from the table `id` through the parents. -/
inductive Encloses (a : Arena) (outer : TableId) : TableId → Prop where
  | self : Encloses a outer outer
  | parent {id p : TableId} {t : Table} (ht : a.table id = .ok t) (hp : t.parent = some p)
      (rest : Encloses a outer p) : Encloses a outer id

/-- Every table was opened after its parent. -/
def Layered (a : Arena) : Prop :=
  ∀ ⦃id : TableId⦄ ⦃t : Table⦄ ⦃p : TableId⦄,
    a.table id = .ok t → t.parent = some p → p.index < id.index

namespace Layered

theorem chainFrom_eq (h : a.Layered) {limit limit' : Nat} (hl : id.index < limit)
    (hl' : id.index < limit') : a.chainFrom limit (some id) = a.chainFrom limit' (some id) := by
  induction limit generalizing limit' id with
  | zero => omega
  | succ limit ih =>
    obtain ⟨limit', rfl⟩ : ∃ n, limit' = n + 1 := ⟨limit' - 1, by omega⟩
    simp only [chainFrom]
    congr 1
    cases ht : a.tables[id.index]? with
    | none => cases limit <;> cases limit' <;> simp [chainFrom]
    | some t =>
      cases hp : t.parent with
      | none => cases limit <;> cases limit' <;> simp [chainFrom, hp]
      | some p =>
        have hlt := h (table_eq_ok.mpr ht) hp
        have step : a.chainFrom limit (some p) = a.chainFrom limit' (some p) :=
          ih (by omega) (by omega)
        simpa [hp] using step

/-- A chain starts with the table itself and goes on with the chain of its parent. -/
theorem chain_eq (h : a.Layered) (ht : a.table id = .ok t) :
    a.chain id = id :: (match t.parent with | none => [] | some p => a.chain p) := by
  have hid : id.index < a.tables.size :=
    (Array.getElem?_eq_some_iff.mp (table_eq_ok.mp ht)).1
  rw [chain, chainFrom, table_eq_ok.mp ht, Option.bind_some]
  congr 1
  cases hp : t.parent with
  | none => cases a.tables.size <;> simp [chainFrom]
  | some p =>
    have hlt := h ht hp
    exact h.chainFrom_eq (by omega) (by omega)

end Layered

/-! ## Searching -/

variable {α : Type} {f : Table → Option α} {found : α}

theorem search_cons_of_some {rest : List TableId} (ht : a.table id = .ok t)
    (hf : f t = some found) : a.search f (id :: rest) = .ok (some found) := by
  simp [search, ht, hf, bind, Except.bind, pure, Except.pure]

theorem search_cons_of_none {rest : List TableId} (ht : a.table id = .ok t) (hf : f t = none) :
    a.search f (id :: rest) = a.search f rest := by
  simp [search, ht, hf, bind, Except.bind]

/-- What a search finds was found in a table on the way. -/
theorem exists_of_search_chainFrom {limit : Nat} {start : Option TableId}
    (h : a.search f (a.chainFrom limit start) = .ok (some found)) :
    ∃ id outer t, start = some id ∧ a.Encloses outer id ∧ a.table outer = .ok t ∧
      f t = some found := by
  induction limit generalizing start with
  | zero => simp [chainFrom, search] at h
  | succ limit ih =>
    cases start with
    | none => simp [chainFrom, search] at h
    | some id =>
      simp only [chainFrom] at h
      cases ht : a.table id with
      | error e => simp [search, ht, bind, Except.bind] at h
      | ok t =>
        cases hf : f t with
        | some x =>
          rw [search_cons_of_some ht hf] at h
          cases h
          exact ⟨id, id, t, rfl, .self, ht, hf⟩
        | none =>
          rw [search_cons_of_none ht hf] at h
          obtain ⟨p, outer, u, hp, henc, hu, hfu⟩ := ih h
          rw [table_eq_ok.mp ht, Option.bind_some] at hp
          exact ⟨id, outer, u, rfl, .parent ht hp henc, hu, hfu⟩

/-- A search succeeds if some table on the way has an answer. -/
theorem exists_search_of_encloses (ha : a.Layered) (h : a.Encloses outer id)
    (ht : a.table outer = .ok t) (hf : f t = some found) :
    ∃ x, a.search f (a.chain id) = .ok (some x) := by
  induction h with
  | self =>
    rw [ha.chain_eq ht]
    exact ⟨found, search_cons_of_some ht hf⟩
  | @parent id p u hu hp _ ih =>
    rw [ha.chain_eq hu]
    cases hfu : f u with
    | some x => exact ⟨x, search_cons_of_some hu hfu⟩
    | none =>
      rw [search_cons_of_none hu hfu]
      simpa [hp] using ih

/-! ## Names -/

theorem getLocal_eq_ok {answer : Option SymbolId} (ht : a.table id = .ok t) :
    a.getLocal id name = .ok answer ↔ t.find? name = answer := by
  simp [getLocal, ht, bind, Except.bind, pure, Except.pure]

/-- A lookup is answered by the table itself or else by the lookup in its parent. -/
theorem Layered.get_eq (h : a.Layered) (ht : a.table id = .ok t) :
    a.get id name =
      match t.find? name with
      | some target => .ok (some target)
      | none => match t.parent with
        | none => .ok none
        | some p => a.get p name := by
  unfold get
  rw [h.chain_eq ht]
  cases hf : t.find? name with
  | some target => exact search_cons_of_some ht hf
  | none =>
    rw [search_cons_of_none ht hf]
    cases t.parent <;> rfl

theorem exists_of_get (h : a.get id name = .ok (some target)) :
    ∃ outer t, a.Encloses outer id ∧ a.table outer = .ok t ∧ t.find? name = some target := by
  obtain ⟨_, outer, t, hid, henc, ht, hf⟩ := exists_of_search_chainFrom h
  cases hid
  exact ⟨outer, t, henc, ht, hf⟩

/-- A symbol can be seen from every table that the table of its binding encloses. -/
theorem isVisible_of_encloses (ha : a.Layered) (h : a.Encloses outer id)
    (ht : a.table outer = .ok t) (hs : a.symbol target = .ok s)
    (hf : t.find? s.name = some target) : a.isVisible id target = .ok true := by
  have hbound : (if t.find? s.name = some target then some () else none) = some () := if_pos hf
  obtain ⟨x, hx⟩ := exists_search_of_encloses
    (f := fun t => if t.find? s.name = some target then some () else none) ha h ht hbound
  simp [isVisible, hs, hx, bind, Except.bind, pure, Except.pure]

end Arena

end LineScript
