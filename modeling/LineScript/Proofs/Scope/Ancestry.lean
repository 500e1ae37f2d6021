import LineScript.Proofs.Scope.Growth
import Mathlib.Data.Fintype.EquivFin
import Mathlib.Data.List.Perm.Subperm

/-!
# Ancestries

`Arena.Ancestry` lists a table, its parent, the parent's parent and so on up to a table
without a parent. It needs no bound on the number of steps, and the order in which tables were
opened does not count: a parent may come later than its child.

An arena is rooted if its parents exist and no table is its own ancestor. Then every table has
an ancestry, its tables are all different, and it is the list that a lookup goes through. So a
lookup is never a fault, and it gives the first answer along the ancestry
(`Arena.Rooted.get_eq`).
-/

namespace LineScript.Arena

variable {a : Arena} {id outer c p : TableId} {t : Table} {target : SymbolId} {s : Symbol}
variable {name : String} {chain before after : List TableId}

/-! ## Parents that exist -/

/-- Every parent is a table of the arena. -/
def Linked (a : Arena) : Prop :=
  ∀ t ∈ a.tables.toList, ∀ p ∈ t.parent, a.contains p = true

instance : Decidable a.Linked :=
  inferInstanceAs (Decidable (∀ t ∈ a.tables.toList, ∀ p ∈ t.parent, a.contains p = true))

theorem exists_table_of_contains (h : a.contains id = true) : ∃ t, a.table id = .ok t := by
  have hid : id.index < a.tables.size := of_decide_eq_true h
  exact ⟨a.tables[id.index], table_eq_ok.mpr (Array.getElem?_eq_getElem hid)⟩

theorem Linked.contains_parent (h : a.Linked) (ht : a.table id = .ok t) (hp : t.parent = some p) :
    a.contains p = true :=
  h t (Array.mem_toList_iff.mpr (Array.mem_of_getElem? (table_eq_ok.mp ht))) p hp

/-- A search along existing tables is no fault, whatever it finds. -/
theorem Linked.exists_search {α : Type} (h : a.Linked) (f : Table → Option α) (limit : Nat)
    (start : Option TableId) (hstart : ∀ id ∈ start, a.contains id = true) :
    ∃ found, a.search f (a.chainFrom limit start) = .ok found := by
  induction limit generalizing start with
  | zero => exact ⟨none, by rw [chainFrom, search]⟩
  | succ limit ih =>
    cases start with
    | none => exact ⟨none, by rw [chainFrom, search]; simp⟩
    | some id =>
      obtain ⟨t, ht⟩ := exists_table_of_contains (hstart id rfl)
      rw [chainFrom]
      cases hf : f t with
      | some found => exact ⟨some found, search_cons_of_some ht hf⟩
      | none =>
        rw [search_cons_of_none ht hf, table_eq_ok.mp ht, Option.bind_some]
        exact ih t.parent fun p hp => h.contains_parent ht hp

theorem Linked.exists_isVisible (h : a.Linked) (hid : a.contains id = true)
    (hs : a.symbol target = .ok s) : ∃ visible, a.isVisible id target = .ok visible := by
  obtain ⟨found, hfound⟩ := h.exists_search
    (fun t => if t.find? s.name = some target then some () else none) (a.tables.size + 1)
    (some id) (by rintro _ ⟨⟩; exact hid)
  refine ⟨found.isSome, ?_⟩
  simp only [isVisible, hs, chain, hfound, bind, Except.bind, pure, Except.pure]

/-! ## Ancestors -/

/-- The table, its parent, the parent's parent and so on, up to a table without a parent. -/
inductive Ancestry (a : Arena) : TableId → List TableId → Prop where
  | outermost {id : TableId} {t : Table} (ht : a.table id = .ok t) (hp : t.parent = none) :
      Ancestry a id [id]
  | inner {id p : TableId} {t : Table} {rest : List TableId} (ht : a.table id = .ok t)
      (hp : t.parent = some p) (above : Ancestry a p rest) : Ancestry a id (id :: rest)

theorem Encloses.trans {x y z : TableId} (hxy : a.Encloses x y) (hyz : a.Encloses y z) :
    a.Encloses x z := by
  induction hyz with
  | self => exact hxy
  | parent ht hp _ ih => exact .parent ht hp ih

namespace Ancestry

theorem contains (h : a.Ancestry id chain) (hmem : outer ∈ chain) : a.contains outer = true := by
  induction h with
  | outermost ht => exact List.mem_singleton.mp hmem ▸ contains_of_table ht
  | inner ht _ _ ih =>
    obtain rfl | hmem := List.mem_cons.mp hmem
    · exact contains_of_table ht
    · exact ih hmem

/-- The ancestry lists the tables that enclose the first one. -/
theorem mem_iff (h : a.Ancestry id chain) : outer ∈ chain ↔ a.Encloses outer id := by
  induction h with
  | outermost ht hp =>
    rw [List.mem_singleton]
    constructor
    · rintro rfl
      exact .self
    · intro hencloses
      cases hencloses with
      | self => rfl
      | parent hu hq =>
        rw [ht] at hu
        cases hu
        rw [hp] at hq
        cases hq
  | inner ht hp _ ih =>
    rw [List.mem_cons, ih]
    constructor
    · rintro (rfl | hencloses)
      · exact .self
      · exact .parent ht hp hencloses
    · intro hencloses
      cases hencloses with
      | self => exact .inl rfl
      | parent hu hq rest =>
        rw [ht] at hu
        cases hu
        rw [hp] at hq
        cases hq
        exact .inr rest

/-- Each table of an ancestry has the rest of the list as its own. -/
theorem of_append (h : a.Ancestry id (before ++ c :: after)) : a.Ancestry c (c :: after) := by
  generalize hlist : before ++ c :: after = chain at h
  induction h generalizing before with
  | outermost ht hp =>
    obtain ⟨rfl, hc⟩ := List.append_eq_singleton_iff.mp hlist |>.resolve_right (by simp)
    cases hc
    exact .outermost ht hp
  | inner ht hp above ih =>
    cases before with
    | nil =>
      cases hlist
      exact .inner ht hp above
    | cons x before =>
      cases hlist
      exact ih rfl

/-- The list that a lookup goes through is the ancestry, unless the bound cuts it off. -/
theorem chainFrom_eq (h : a.Ancestry id chain) {limit : Nat} (hlimit : chain.length ≤ limit) :
    a.chainFrom limit (some id) = chain := by
  induction h generalizing limit with
  | outermost ht hp =>
    obtain ⟨limit, rfl⟩ := Nat.exists_eq_add_of_le' hlimit
    rw [List.length_singleton, chainFrom, table_eq_ok.mp ht, Option.bind_some, hp]
    cases limit <;> simp [chainFrom]
  | inner ht hp _ ih =>
    rw [List.length_cons] at hlimit
    obtain ⟨limit, rfl⟩ := Nat.exists_eq_succ_of_ne_zero (Nat.ne_of_gt (Nat.lt_of_lt_of_le
      (Nat.succ_pos _) hlimit))
    rw [chainFrom, table_eq_ok.mp ht, Option.bind_some, hp, ih (Nat.le_of_succ_le_succ hlimit)]

end Ancestry

/-! ## Rooted arenas -/

/-- No table is met again on the way from its parent. -/
def Acyclic (a : Arena) : Prop :=
  ∀ ⦃id : TableId⦄ ⦃t : Table⦄ ⦃p : TableId⦄,
    a.table id = .ok t → t.parent = some p → ¬ a.Encloses id p

/-- Every parent exists, and no table is its own ancestor. -/
structure Rooted (a : Arena) : Prop where
  linked : a.Linked
  acyclic : a.Acyclic

/-- There is no cycle if parents have a lower rank, whatever the rank is. -/
theorem acyclic_of_rank (rank : TableId → Nat)
    (h : ∀ ⦃id t p⦄, a.table id = .ok t → t.parent = some p → rank p < rank id) : a.Acyclic := by
  have hle {outer id : TableId} (hencloses : a.Encloses outer id) : rank outer ≤ rank id := by
    induction hencloses with
    | self => exact Nat.le_refl _
    | parent ht hp _ ih => exact Nat.le_trans ih (Nat.le_of_lt (h ht hp))
  intro id t p ht hp hencloses
  exact absurd (hle hencloses) (Nat.not_le_of_gt (h ht hp))

theorem Layered.rooted (h : a.Layered) : a.Rooted where
  linked t ht p hp := by
    obtain ⟨i, hi⟩ := Array.mem_iff_getElem?.mp (Array.mem_toList_iff.mp ht)
    have htable : a.table ⟨i⟩ = .ok t := table_eq_ok.mpr hi
    have hlt := h htable hp
    exact decide_eq_true (Nat.lt_trans hlt (index_lt_of_table htable))
  acyclic := acyclic_of_rank TableId.index h

/-- The first table is a parent of the second, or a parent's parent, and so on. -/
def Above (a : Arena) (x y : Fin a.tables.size) : Prop :=
  ∃ t p, a.table ⟨y⟩ = .ok t ∧ t.parent = some p ∧ a.Encloses ⟨x⟩ p

theorem Acyclic.wellFounded_above (h : a.Acyclic) : WellFounded a.Above := by
  have : IsTrans (Fin a.tables.size) a.Above := by
    refine ⟨fun x y z hxy hyz => ?_⟩
    obtain ⟨t, p, ht, hp, hx⟩ := hxy
    obtain ⟨u, q, hu, hq, hy⟩ := hyz
    exact ⟨u, q, hu, hq, Encloses.trans (.parent ht hp hx) hy⟩
  have : Std.Irrefl a.Above := by
    refine ⟨fun x hx => ?_⟩
    obtain ⟨t, p, ht, hp, hencloses⟩ := hx
    exact h ht hp hencloses
  exact Finite.wellFounded_of_trans_of_irrefl a.Above

namespace Rooted

theorem exists_ancestry (h : a.Rooted) (hid : a.contains id = true) :
    ∃ chain, a.Ancestry id chain := by
  have hall (x : Fin a.tables.size) : ∃ chain, a.Ancestry ⟨x⟩ chain := by
    induction x using h.acyclic.wellFounded_above.induction with
    | _ x ih =>
      have htable : a.table ⟨x⟩ = .ok a.tables[x] :=
        table_eq_ok.mpr (Array.getElem?_eq_getElem x.isLt)
      cases hp : a.tables[x].parent with
      | none => exact ⟨_, .outermost htable hp⟩
      | some p =>
        have hlt : p.index < a.tables.size :=
          of_decide_eq_true (h.linked.contains_parent htable hp)
        obtain ⟨chain, hchain⟩ := ih ⟨p.index, hlt⟩ ⟨_, p, htable, hp, .self⟩
        exact ⟨_, .inner htable hp hchain⟩
  exact hall ⟨id.index, of_decide_eq_true hid⟩

theorem nodup (h : a.Rooted) (hchain : a.Ancestry id chain) : chain.Nodup := by
  induction hchain with
  | outermost => exact List.nodup_singleton _
  | inner ht hp above ih =>
    refine List.nodup_cons.mpr ⟨fun hmem => ?_, ih⟩
    exact h.acyclic ht hp (above.mem_iff.mp hmem)

/-- An ancestry is no longer than the list of all tables. -/
theorem length_le (h : a.Rooted) (hchain : a.Ancestry id chain) :
    chain.length ≤ a.tables.size := by
  have hsub : chain ⊆ a.tableIds := by
    intro outer hmem
    have hlt : outer.index < a.tables.size := of_decide_eq_true (hchain.contains hmem)
    exact List.mem_map.mpr ⟨outer.index, List.mem_range.mpr hlt, rfl⟩
  simpa [tableIds] using ((h.nodup hchain).subperm hsub).length_le

theorem chain_eq (h : a.Rooted) (hchain : a.Ancestry id chain) : a.chain id = chain :=
  hchain.chainFrom_eq (Nat.le_succ_of_le (h.length_le hchain))

end Rooted

/-! ## Lookups -/

/-- The symbol that the table binds the name to. -/
def bound? (a : Arena) (name : String) (id : TableId) : Option SymbolId :=
  a.tables[id.index]?.bind fun t => t.find? name

theorem bound?_of_table (ht : a.table id = .ok t) : a.bound? name id = t.find? name := by
  rw [bound?, table_eq_ok.mp ht, Option.bind_some]

theorem binds_iff : a.Binds id name target ↔ a.bound? name id = some target := by
  simp only [Binds, bound?, Option.bind_eq_some_iff, table_eq_ok]

theorem search_eq_findSome? {α : Type} {f : Table → Option α}
    (h : ∀ id ∈ chain, a.contains id = true) :
    a.search f chain = .ok (chain.findSome? fun id => a.tables[id.index]?.bind f) := by
  induction chain with
  | nil => rfl
  | cons id chain ih =>
    obtain ⟨t, ht⟩ := exists_table_of_contains (h id List.mem_cons_self)
    have hrest := ih fun x hx => h x (List.mem_cons_of_mem _ hx)
    rw [List.findSome?_cons, table_eq_ok.mp ht, Option.bind_some]
    cases hf : f t with
    | some found => exact search_cons_of_some ht hf
    | none => rw [search_cons_of_none ht hf, hrest]

namespace Rooted

/-- A lookup gives the first answer along the ancestry of its table. -/
theorem get_eq (h : a.Rooted) (hchain : a.Ancestry id chain) :
    a.get id name = .ok (chain.findSome? (a.bound? name)) := by
  rw [get, h.chain_eq hchain, search_eq_findSome? fun _ hmem => hchain.contains hmem]
  rfl

/-- A symbol is seen if a table of the ancestry binds its name to it. -/
theorem isVisible_eq (h : a.Rooted) (hchain : a.Ancestry id chain) (hs : a.symbol target = .ok s) :
    a.isVisible id target =
      .ok (chain.any fun outer => a.bound? s.name outer = some target) := by
  have hsearch := search_eq_findSome?
    (f := fun t => if t.find? s.name = some target then some () else none)
    fun outer (hmem : outer ∈ chain) => hchain.contains hmem
  simp only [isVisible, hs, h.chain_eq hchain, hsearch, bind, Except.bind, pure, Except.pure]
  rw [Except.ok.injEq, Bool.eq_iff_iff, List.findSome?_isSome_iff, List.any_eq_true]
  refine exists_congr fun outer => and_congr_right fun hmem => ?_
  obtain ⟨t, ht⟩ := exists_table_of_contains (hchain.contains hmem)
  rw [table_eq_ok.mp ht, Option.bind_some, bound?_of_table ht]
  split <;> simp_all

end Rooted

end LineScript.Arena
