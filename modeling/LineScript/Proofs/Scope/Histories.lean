import LineScript.Proofs.Scope.Changes

/-!
# Histories of arenas

An arena comes about by changes, one after the other: tables are opened below tables that are
there already, symbols are added and names deleted, and symbols get other kinds and values. A
name can be declared again, which leaves the old symbol without a binding, and a deleted name
leaves its symbol behind. `Arena.Built` relates an arena to its history.

Every change keeps an arena orderly (`Arena.Orderly`): parents come first, a name leads to a
symbol of that name, no symbol is bound in two tables, and no table lists a name twice. A symbol
is looked for under its name, and order is what makes this find it: what a table binds at the
end is what the history says about it (`Arena.Built.bound?_iff`).
-/

namespace LineScript

/-- No name occurs twice among the entries. -/
def Table.Distinct (t : Table) : Prop :=
  (t.locals.map Prod.fst).Nodup

namespace Table

variable {t : Table} {name : String} {id : SymbolId}

theorem Distinct.erase (h : t.Distinct) (name : String) : (t.erase name).Distinct :=
  h.sublist (List.filter_sublist.map _)

theorem Distinct.bind (h : t.Distinct) (name : String) (id : SymbolId) :
    (t.bind name id).Distinct := by
  have hfresh : name ∉ (t.erase name).locals.map Prod.fst := by
    simp [Table.erase]
  rw [Distinct, Table.bind, List.map_append, List.map_singleton, List.nodup_append]
  refine ⟨h.erase name, List.nodup_singleton _, ?_⟩
  intro x hx y hy hxy
  rw [hxy, List.mem_singleton.mp hy] at hx
  exact hfresh hx

/-- If names are distinct, an entry is what a lookup of its name finds. -/
theorem Distinct.find?_eq_some_iff (h : t.Distinct) :
    t.find? name = some id ↔ (name, id) ∈ t.locals := by
  rw [Distinct] at h
  rw [find?]
  generalize t.locals = entries at h
  induction entries with
  | nil => simp
  | cons entry entries ih =>
    obtain ⟨key, value⟩ := entry
    rw [List.map_cons, List.nodup_cons] at h
    by_cases hkey : name = key
    · subst hkey
      have hnot : (name, id) ∉ entries := fun hmem => h.1 (List.mem_map.mpr ⟨_, hmem, rfl⟩)
      simp [hnot, eq_comm]
    · simp [List.lookup_cons, beq_eq_false_iff_ne.mpr hkey, hkey, ih h.2]

end Table

namespace Arena

variable {a b : Arena} {id table : TableId} {t : Table} {target new : SymbolId} {s : Symbol}
variable {name : String} {parent : Option TableId} {f : Symbol → Symbol}

/-! ## Orderly arenas -/

/-- What every change of an arena keeps. -/
structure Orderly (a : Arena) : Prop where
  wellFormed : a.WellFormed
  owner : ∀ ⦃id id' name name' target⦄, a.bound? name id = some target →
    a.bound? name' id' = some target → id = id'
  distinct : ∀ ⦃id t⦄, a.table id = .ok t → t.Distinct

theorem WellFormed.named_of_bound? (h : a.WellFormed) (hbound : a.bound? name id = some target) :
    ∃ s, a.symbol target = .ok s ∧ s.name = name := by
  obtain ⟨t, ht, hfind⟩ := binds_iff.mpr hbound
  exact h.named ht hfind

theorem SameParents.layered (h : a.SameParents b) (ha : a.Layered) : b.Layered := by
  intro id u p hu hp
  obtain ⟨t, ht, htp⟩ := h.symm.exists_table hu
  exact ha ht (htp.trans hp)

theorem WellFormed.erased (h : a.WellFormed) : (a.erased table name).WellFormed where
  layered := sameParents_erased.layered h.layered
  named id u other target hu hfind := by
    have hbound : (a.erased table name).bound? other id = some target :=
      (bound?_of_table hu).trans hfind
    rw [bound?_erased] at hbound
    split at hbound
    · cases hbound
    · exact h.named_of_bound? hbound

theorem symbol_updated (hs : a.symbol target = .ok s) (new : SymbolId)
    (hname : ∀ s, (f s).name = s.name) :
    ∃ r, (a.updated new f).symbol target = .ok r ∧ r.name = s.name := by
  rw [symbol_eq_ok] at hs
  by_cases hnew : new.index = target.index
  · exact ⟨f s, by simp [updated, Array.getElem?_modify, hnew, hs], hname s⟩
  · exact ⟨s, by simp [updated, Array.getElem?_modify, hnew, hs], rfl⟩

theorem WellFormed.updated (h : a.WellFormed) (target : SymbolId)
    (hname : ∀ s, (f s).name = s.name) : (a.updated target f).WellFormed where
  layered := sameParents_updated.layered h.layered
  named id u name new hu hfind := by
    obtain ⟨s, hs, rfl⟩ := h.named (t := u) hu hfind
    exact symbol_updated hs target hname

namespace Orderly

theorem empty : Arena.empty.Orderly where
  wellFormed := .empty
  owner id id' name name' target h := by simp [bound?, Arena.empty] at h
  distinct id t ht := by simp [Arena.empty] at ht

theorem openTable (h : a.Orderly) (hp : ∀ p ∈ parent, a.contains p = true) :
    (a.openTable parent).2.Orderly where
  wellFormed := h.wellFormed.openTable hp
  owner id id' name name' target hbound hbound' := by
    rw [bound?_openTable] at hbound hbound'
    exact h.owner hbound hbound'
  distinct id t ht := by
    obtain hold | ⟨-, rfl⟩ := table_of_openTable ht
    · exact h.distinct hold
    · exact List.nodup_nil

/-- A symbol that is new is bound in one table only, and it is bound to one name. -/
theorem declare (h : a.Orderly) (ht : a.table table = .ok t) :
    (a.declare table s).2.Orderly where
  wellFormed := h.wellFormed.declare ht
  owner id id' name name' target hbound hbound' := by
    have hold {id : TableId} {name : String} (hb : a.bound? name id = some target) :
        target.index < a.symbols.size := by
      obtain ⟨r, hr, -⟩ := h.wellFormed.named_of_bound? hb
      exact index_lt_of_symbol hr
    rw [bound?_declare (contains_of_table ht)] at hbound hbound'
    split at hbound
    case isTrue hhere =>
      cases hbound
      split at hbound'
      case isTrue hhere' => exact hhere.2.trans hhere'.2.symm
      case isFalse => exact absurd (hold hbound') (by simp)
    case isFalse =>
      split at hbound'
      case isTrue =>
        cases hbound'
        exact absurd (hold hbound) (by simp)
      case isFalse => exact h.owner hbound hbound'
  distinct id u hu := by
    by_cases hid : id = table
    · subst hid
      rw [table_declare_self ht] at hu
      cases hu
      exact (h.distinct ht).bind s.name _
    · rw [table_declare_of_ne hid] at hu
      exact h.distinct hu

theorem erased (h : a.Orderly) : (a.erased table name).Orderly where
  wellFormed := h.wellFormed.erased
  owner id id' other other' target hbound hbound' := by
    rw [bound?_erased] at hbound hbound'
    split at hbound
    · cases hbound
    · split at hbound'
      · cases hbound'
      · exact h.owner hbound hbound'
  distinct id u hu := by
    rw [table_eq_ok, Arena.erased, Array.getElem?_modify] at hu
    split at hu
    · obtain ⟨t, ht, rfl⟩ := Option.map_eq_some_iff.mp hu
      have htable : a.table id = .ok t := table_eq_ok.mpr ht
      exact (h.distinct htable).erase name
    · have htable : a.table id = .ok u := table_eq_ok.mpr hu
      exact h.distinct htable

theorem updated (h : a.Orderly) (target : SymbolId) (hname : ∀ s, (f s).name = s.name) :
    (a.updated target f).Orderly where
  wellFormed := h.wellFormed.updated target hname
  owner := h.owner
  distinct := h.distinct

end Orderly

/-! ## Histories -/

/-- A change of an arena. -/
inductive Change where
  | opening (parent : Option TableId)
  | adding (table : TableId) (s : Symbol)
  | deleting (table : TableId) (name : String)
  | updating (target : SymbolId) (f : Symbol → Symbol)

/-- The change deletes or replaces what the table binds the name to. -/
def Change.Unbinds (table : TableId) (name : String) : Change → Prop
  | .adding other s => other = table ∧ s.name = name
  | .deleting other gone => other = table ∧ gone = name
  | .opening _ | .updating _ _ => False

variable {history : List Change} {change : Change}

/-- The empty arena becomes this one by the changes of the history, of which the last is listed
first. Parents are opened before their children, and no symbol is renamed. -/
inductive Built : List Change → Arena → Prop where
  | empty : Built [] .empty
  | opening {history : List Change} {a : Arena} {parent : Option TableId} (h : Built history a)
      (hparent : ∀ p ∈ parent, a.contains p = true) :
      Built (.opening parent :: history) (a.openTable parent).2
  | adding {history : List Change} {a b : Arena} {table : TableId} {s : Symbol} {new : SymbolId}
      (h : Built history a) (hadd : a.add table s = .ok (new, b)) :
      Built (.adding table s :: history) b
  | deleting {history : List Change} {a b : Arena} {table : TableId} {name : String} {found : Bool}
      (h : Built history a) (hdelete : a.delete table name = .ok (found, b)) :
      Built (.deleting table name :: history) b
  | updating {history : List Change} {a b : Arena} {target : SymbolId} {f : Symbol → Symbol}
      (h : Built history a) (hname : ∀ s, (f s).name = s.name)
      (hupdate : a.update target f = .ok b) : Built (.updating target f :: history) b

/-- The symbol was added to the table under this name, and what the table binds the name to was
neither deleted nor replaced since. -/
inductive Standing (table : TableId) (name : String) (target : SymbolId) : List Change → Prop where
  | added {history : List Change} {a b : Arena} {s : Symbol} (h : Built history a)
      (hadd : a.add table s = .ok (target, b)) (hname : s.name = name) :
      Standing table name target (.adding table s :: history)
  | kept {history : List Change} {change : Change} (h : Standing table name target history)
      (hkept : ¬ change.Unbinds table name) : Standing table name target (change :: history)

namespace Built

theorem orderly (h : Built history a) : a.Orderly := by
  induction h with
  | empty => exact .empty
  | opening _ hparent ih => exact ih.openTable hparent
  | adding _ hadd ih =>
    obtain ⟨hcontains, hdeclare⟩ := add_eq_ok.mp hadd
    obtain ⟨t, ht⟩ := exists_table_of_contains hcontains
    obtain rfl := congrArg Prod.snd hdeclare
    exact ih.declare ht
  | deleting _ hdelete ih =>
    obtain ⟨-, -, rfl⟩ := delete_eq_ok.mp hdelete
    exact ih.erased
  | updating _ hname hupdate ih =>
    obtain ⟨-, rfl⟩ := update_eq_ok.mp hupdate
    exact ih.updated _ hname

/-- A history leads to one arena only. -/
theorem unique (ha : Built history a) (hb : Built history b) : a = b := by
  induction ha generalizing b with
  | empty =>
    cases hb
    rfl
  | opening _ _ ih =>
    cases hb with
    | opening h _ => rw [ih h]
  | adding _ hadd ih =>
    cases hb with
    | adding h hadd' =>
      rw [ih h, hadd'] at hadd
      cases hadd
      rfl
  | deleting _ hdelete ih =>
    cases hb with
    | deleting h hdelete' =>
      rw [ih h, hdelete'] at hdelete
      cases hdelete
      rfl
  | updating _ _ hupdate ih =>
    cases hb with
    | updating h _ hupdate' =>
      rw [ih h, hupdate'] at hupdate
      cases hupdate
      rfl

/-- A table binds a name to a symbol exactly if the history left the binding standing. -/
theorem bound?_iff (h : Built history a) :
    a.bound? name table = some target ↔ Standing table name target history := by
  induction h with
  | empty =>
    constructor
    · intro hbound
      simp [bound?, Arena.empty] at hbound
    · intro hstanding
      cases hstanding
  | opening _ _ ih =>
    rw [bound?_openTable, ih]
    constructor
    · exact fun hstanding => .kept hstanding id
    · intro hstanding
      cases hstanding with
      | kept hstanding _ => exact hstanding
  | @adding history a b other s new hbuilt hadd ih =>
    obtain ⟨hcontains, hdeclare⟩ := add_eq_ok.mp hadd
    obtain rfl := congrArg Prod.fst hdeclare
    obtain rfl := congrArg Prod.snd hdeclare
    rw [bound?_declare hcontains]
    constructor
    · intro hbound
      split at hbound
      case isTrue hhere =>
        obtain ⟨rfl, rfl⟩ := hhere
        cases hbound
        exact .added hbuilt hadd rfl
      case isFalse helse =>
        exact .kept (ih.mp hbound) fun hunbinds => helse ⟨hunbinds.2.symm, hunbinds.1.symm⟩
    · intro hstanding
      cases hstanding with
      | added hbuilt' hadd' hname =>
        obtain rfl := hbuilt.unique hbuilt'
        rw [hadd] at hadd'
        cases hadd'
        rw [if_pos ⟨hname.symm, rfl⟩]
      | kept hstanding hkept =>
        rw [if_neg fun hhere => hkept ⟨hhere.2.symm, hhere.1.symm⟩]
        exact ih.mpr hstanding
  | @deleting history a b other gone found _ hdelete ih =>
    obtain ⟨-, -, rfl⟩ := delete_eq_ok.mp hdelete
    rw [bound?_erased]
    constructor
    · intro hbound
      split at hbound
      case isTrue => cases hbound
      case isFalse helse =>
        exact .kept (ih.mp hbound) fun hunbinds => helse ⟨hunbinds.2.symm, hunbinds.1.symm⟩
    · intro hstanding
      cases hstanding with
      | kept hstanding hkept =>
        rw [if_neg fun hhere => hkept ⟨hhere.2.symm, hhere.1.symm⟩]
        exact ih.mpr hstanding
  | updating _ _ hupdate ih =>
    obtain ⟨-, rfl⟩ := update_eq_ok.mp hupdate
    rw [bound?_updated, ih]
    constructor
    · exact fun hstanding => .kept hstanding id
    · intro hstanding
      cases hstanding with
      | kept hstanding _ => exact hstanding

end Built

/-! ## Listing the symbols of a table -/

/-- The second arena lists the entries of its tables in another order, and is the same in all
else. -/
structure Reordered (a b : Arena) : Prop where
  symbols : b.symbols = a.symbols
  size : b.tables.size = a.tables.size
  tables : ∀ ⦃id t⦄, a.table id = .ok t →
    ∃ u, b.table id = .ok u ∧ u.parent = t.parent ∧ u.locals.Perm t.locals

theorem mapM_eq_map {α β : Type} {g : α → Except Fault β} {f : α → β} {xs : List α}
    (h : ∀ x ∈ xs, g x = .ok (f x)) : xs.mapM g = .ok (xs.map f) := by
  induction xs with
  | nil => rfl
  | cons x xs ih =>
    have hrest := ih fun y hy => h y (List.mem_cons_of_mem _ hy)
    simp only [List.mapM_cons, h x List.mem_cons_self, hrest, bind, Except.bind, pure, Except.pure,
      List.map_cons]

/-- Sorting by names leaves them strictly increasing if they are different. -/
theorem pairwise_mergeSort_name {symbols : List Symbol} (h : (symbols.map Symbol.name).Nodup) :
    (symbols.mergeSort fun r s => r.name ≤ s.name).Pairwise fun r s => r.name < s.name := by
  have hle : (symbols.mergeSort fun r s => r.name ≤ s.name).Pairwise
      fun r s => decide (r.name ≤ s.name) = true := by
    refine List.pairwise_mergeSort ?_ ?_ symbols
    · intro r s t hrs hst
      exact decide_eq_true (String.le_trans (of_decide_eq_true hrs) (of_decide_eq_true hst))
    · intro r s
      simpa using String.le_total r.name s.name
  have hne : (symbols.mergeSort fun r s => r.name ≤ s.name).Pairwise fun r s => r.name ≠ s.name :=
    List.pairwise_map.mp (((List.mergeSort_perm symbols _).map Symbol.name).nodup_iff.mpr h)
  refine (hle.and hne).imp ?_
  rintro r s ⟨hrs, hdifferent⟩
  refine String.not_le.mp fun hsr => hdifferent ?_
  exact String.le_antisymm (of_decide_eq_true hrs) hsr

/-- The symbols of a table are listed by strictly increasing names. -/
theorem exists_locals (ht : a.table id = .ok t) (hdistinct : t.Distinct)
    (hnamed : ∀ entry ∈ t.locals, ∃ s, a.symbol entry.2 = .ok s ∧ s.name = entry.1) :
    ∃ symbols, a.locals id = .ok symbols ∧ symbols.Pairwise (fun r s => r.name < s.name) ∧
      ∀ r, r ∈ symbols ↔ ∃ entry ∈ t.locals, a.symbol entry.2 = .ok r := by
  let symbolOf (entry : String × SymbolId) : Symbol :=
    a.symbols[entry.2.index]?.getD (.declared entry.1 .number)
  have hsymbol : ∀ entry ∈ t.locals,
      a.symbol entry.2 = .ok (symbolOf entry) ∧ (symbolOf entry).name = entry.1 := by
    intro entry hentry
    obtain ⟨s, hs, hname⟩ := hnamed entry hentry
    have heq : symbolOf entry = s := by simp only [symbolOf, symbol_eq_ok.mp hs, Option.getD_some]
    exact ⟨heq ▸ hs, heq ▸ hname⟩
  have hnames : (t.locals.map symbolOf).map Symbol.name = t.locals.map Prod.fst := by
    rw [List.map_map]
    exact List.map_congr_left fun entry hentry => (hsymbol entry hentry).2
  refine ⟨(t.locals.map symbolOf).mergeSort fun r s => r.name ≤ s.name, ?_, ?_, ?_⟩
  · have hall := mapM_eq_map fun entry hentry => (hsymbol entry hentry).1
    simp only [locals, ht, hall, bind, Except.bind, pure, Except.pure]
  · exact pairwise_mergeSort_name (hnames ▸ hdistinct)
  · intro r
    rw [List.mem_mergeSort, List.mem_map]
    refine exists_congr fun entry => and_congr_right fun hentry => ?_
    rw [(hsymbol entry hentry).1, Except.ok.injEq]

/-- Two lists with increasing names are equal if they have the same symbols. -/
theorem eq_of_pairwise_name {xs ys : List Symbol} (hx : xs.Pairwise fun r s => r.name < s.name)
    (hy : ys.Pairwise fun r s => r.name < s.name) (h : ∀ r, r ∈ xs ↔ r ∈ ys) : xs = ys := by
  have hnodup {zs : List Symbol} (hz : zs.Pairwise fun r s => r.name < s.name) : zs.Nodup := by
    refine hz.imp ?_
    rintro r _ hlt rfl
    exact String.lt_irrefl _ hlt
  refine List.Perm.eq_of_pairwise ?_ hx hy
    ((List.perm_ext_iff_of_nodup (hnodup hx) (hnodup hy)).mpr h)
  intro r s _ _ hrs hsr
  exact absurd hrs (String.lt_asymm hsr)

namespace Orderly

theorem named (h : a.Orderly) (ht : a.table id = .ok t) {entry : String × SymbolId}
    (hentry : entry ∈ t.locals) : ∃ s, a.symbol entry.2 = .ok s ∧ s.name = entry.1 :=
  h.wellFormed.named ht ((h.distinct ht).find?_eq_some_iff.mpr hentry)

/-- The listing of a table holds the symbols that the table binds, and the order of the entries
does not matter to it. -/
theorem locals_eq (h : a.Orderly) (ht : a.table id = .ok t) :
    ∃ symbols, a.locals id = .ok symbols ∧ symbols.Pairwise (fun r s => r.name < s.name) ∧
      (∀ r, r ∈ symbols ↔ ∃ name target, a.Binds id name target ∧ a.symbol target = .ok r) ∧
      ∀ b, a.Reordered b → b.locals id = .ok symbols := by
  obtain ⟨symbols, hlocals, hsorted, hmem⟩ :=
    exists_locals ht (h.distinct ht) fun entry hentry => h.named ht hentry
  refine ⟨symbols, hlocals, hsorted, fun r => ?_, fun b hb => ?_⟩
  · rw [hmem]
    constructor
    · rintro ⟨⟨name, target⟩, hentry, hr⟩
      exact ⟨name, target, ⟨t, ht, (h.distinct ht).find?_eq_some_iff.mpr hentry⟩, hr⟩
    · rintro ⟨name, target, ⟨u, hu, hfind⟩, hr⟩
      rw [ht] at hu
      cases hu
      exact ⟨(name, target), (h.distinct ht).find?_eq_some_iff.mp hfind, hr⟩
  · obtain ⟨u, hu, -, hperm⟩ := hb.tables ht
    have hsymbol (target : SymbolId) : b.symbol target = a.symbol target := by
      simp only [symbol, hb.symbols]
    obtain ⟨symbols', hlocals', hsorted', hmem'⟩ := exists_locals hu
      ((hperm.map Prod.fst).nodup_iff.mpr (h.distinct ht)) fun entry hentry => by
        rw [hsymbol]
        exact h.named ht (hperm.mem_iff.mp hentry)
    rw [hlocals', eq_of_pairwise_name hsorted' hsorted]
    intro r
    simp only [hmem, hmem', hsymbol, hperm.mem_iff]

end Orderly

/-! ## What an arena answers -/

/-- The answers of an arena with this history, asked about a table with this ancestry. -/
structure Answers (history : List Change) (a : Arena) (id : TableId) (chain : List TableId) :
    Prop where
  /-- A name leads to where the first table that binds it says. -/
  get : ∀ name, a.get id name = .ok (chain.findSome? (a.bound? name))
  visible_of_get : ∀ ⦃name target⦄, a.get id name = .ok (some target) →
    a.isVisible id target = .ok true
  /-- A symbol is seen if its binding in a table of the ancestry still stands. -/
  isVisible : ∀ ⦃target s⦄, a.symbol target = .ok s → ∃ visible,
    a.isVisible id target = .ok visible ∧
      (visible = true ↔ ∃ table ∈ chain, ∃ name, Standing table name target history)
  /-- The symbols that the table binds, each once, by name and not by the order of entries. -/
  locals : ∃ symbols, a.locals id = .ok symbols ∧
    symbols.Pairwise (fun r s => r.name < s.name) ∧
    (∀ r, r ∈ symbols ↔ ∃ name target, a.Binds id name target ∧ a.symbol target = .ok r) ∧
    ∀ b, a.Reordered b → b.locals id = .ok symbols

namespace Built

theorem isVisible_eq (h : Built history a) {chain : List TableId} (hchain : a.Ancestry id chain)
    (hs : a.symbol target = .ok s) : ∃ visible, a.isVisible id target = .ok visible ∧
      (visible = true ↔ ∃ table ∈ chain, ∃ name, Standing table name target history) := by
  refine ⟨_, h.orderly.wellFormed.layered.rooted.isVisible_eq hchain hs, ?_⟩
  rw [List.any_eq_true]
  refine exists_congr fun table => and_congr_right fun _ => ?_
  rw [decide_eq_true_iff]
  constructor
  · intro hbound
    exact ⟨s.name, h.bound?_iff.mp hbound⟩
  · rintro ⟨name, hstanding⟩
    have hbound := h.bound?_iff.mpr hstanding
    obtain ⟨r, hr, rfl⟩ := h.orderly.wellFormed.named_of_bound? hbound
    rw [hs] at hr
    cases hr
    exact hbound

/-- Whatever was done to an arena, parents are older than their children, a name leads to a
symbol of this name, a symbol is bound in one table at most, and every table answers for itself
and its ancestry. -/
theorem lookups_answered (h : Built history a) :
    a.Layered ∧
      (∀ id name target, a.Binds id name target →
        (∃ s, a.symbol target = .ok s ∧ s.name = name) ∧
          ∀ id' name', a.Binds id' name' target → id' = id) ∧
      ∀ id, a.contains id = true → ∃ chain, a.Ancestry id chain ∧ Answers history a id chain := by
  have horderly := h.orderly
  have hrooted := horderly.wellFormed.layered.rooted
  refine ⟨horderly.wellFormed.layered, fun id name target hbinds => ⟨?_, ?_⟩, fun id hid => ?_⟩
  · exact horderly.wellFormed.named_of_bound? (binds_iff.mp hbinds)
  · exact fun id' name' hbinds' => horderly.owner (binds_iff.mp hbinds') (binds_iff.mp hbinds)
  · obtain ⟨chain, hchain⟩ := hrooted.exists_ancestry hid
    obtain ⟨t, ht⟩ := exists_table_of_contains hid
    refine ⟨chain, hchain, fun name => hrooted.get_eq hchain, ?_, fun target s hs =>
      h.isVisible_eq hchain hs, horderly.locals_eq ht⟩
    intro name target hget
    obtain ⟨outer, u, henc, hu, hfind⟩ := exists_of_get hget
    obtain ⟨s, hs, rfl⟩ := horderly.wellFormed.named hu hfind
    exact isVisible_of_encloses horderly.wellFormed.layered henc hu hs hfind

/-- A name is declared in two tables, declared again in the outer one and deleted from the inner
one. Only the symbol that was added last can be seen. -/
theorem lookups_answered_redeclared :
    let history : List Change :=
      [.updating ⟨2⟩ fun s => { s with value := .string "v" }, .deleting ⟨1⟩ "x",
        .adding ⟨0⟩ (.declared "x" .string), .adding ⟨1⟩ (.declared "x" .number),
        .adding ⟨0⟩ (.declared "x" .number), .opening (some ⟨0⟩), .opening none]
    let a : Arena :=
      { tables := #[⟨[("x", ⟨2⟩)], none⟩, ⟨[], some ⟨0⟩⟩]
        symbols := #[.declared "x" .number, .declared "x" .number, ⟨"x", .string, .string "v"⟩] }
    Built history a ∧ a.contains ⟨1⟩ = true ∧ a.isVisible ⟨1⟩ ⟨0⟩ = .ok false ∧
      a.isVisible ⟨1⟩ ⟨1⟩ = .ok false ∧ a.isVisible ⟨1⟩ ⟨2⟩ = .ok true ∧
      ∃ chain, a.Ancestry ⟨1⟩ chain ∧ Answers history a ⟨1⟩ chain := by
  intro history a
  have hbuilt : Built history a := by
    refine .updating (.deleting (.adding (.adding
      (.adding (.opening (.opening .empty ?_) ?_) rfl) rfl) rfl) rfl)
      (fun _ => rfl) rfl
    · rintro p ⟨⟩
    · rintro p ⟨⟩
      rfl
  exact ⟨hbuilt, by decide, by decide, by decide, by decide,
    hbuilt.lookups_answered.2.2 ⟨1⟩ (by decide)⟩

end Built

end Arena

end LineScript
