import LineScript.Proofs.Scope.Changes

/-!
# Shadowing

A name is looked up along the ancestry of a table, and the first table that binds it answers.
So what a table binds a name to matters only to the tables that it is exposed to: it is on
their ancestry, and no table before it binds the name. Declaring a name redirects exactly the
lookups of this name from these tables, to the new symbol. Taking a name out of a table sends
them on to the parent of the table. Everything else is looked up as before, whatever tables,
siblings and levels of shadowing there are (`Arena.Rooted.lookups_redirected`).
-/

namespace LineScript.Arena

variable {a b : Arena} {id c : TableId} {t : Table} {s : Symbol} {name m : String}
variable {chain before after : List TableId}

/-! ## Exposed tables -/

/-- Looking up the name from the table `id` comes as far as the table `c`. -/
def Exposes (a : Arena) (name : String) (c id : TableId) : Prop :=
  ∃ before after, a.Ancestry id (before ++ c :: after) ∧
    ∀ inner ∈ before, a.bound? name inner = none

/-- What the name leads to from the parent of the table on. -/
def getAbove (a : Arena) (id : TableId) (name : String) : Except Fault (Option SymbolId) := do
  match (← a.table id).parent with
  | none => return none
  | some p => a.get p name

/-- Lookups of the name that come as far as the table `c` have the given answer in the second
arena. All other lookups have the answer that they have in the first. -/
structure Redirects (a b : Arena) (c : TableId) (name : String)
    (answer : Except Fault (Option SymbolId)) : Prop where
  answers : ∀ ⦃id⦄, a.contains id = true → ∀ m, ∃ found, b.get id m = .ok found
  exposed : ∀ ⦃id⦄, a.Exposes name c id → b.get id name = answer
  other : ∀ ⦃id⦄, a.contains id = true → ∀ ⦃m⦄, ¬ (m = name ∧ a.Exposes name c id) →
    b.get id m = a.get id m

theorem Rooted.getAbove_eq (h : a.Rooted) (hchain : a.Ancestry c (c :: after)) :
    a.getAbove c name = .ok (after.findSome? (a.bound? name)) := by
  generalize hlist : c :: after = chain at hchain
  cases hchain with
  | outermost ht hp =>
    cases hlist
    simp [getAbove, ht, hp, bind, Except.bind, pure, Except.pure]
  | inner ht hp above =>
    cases hlist
    simp [getAbove, ht, hp, h.get_eq above, bind, Except.bind]

/-! ## Arenas that differ in one binding -/

/-- The second arena has the tables of the first. They bind the same names to the same symbols,
up to one name in one table. -/
structure DiffersAt (a b : Arena) (c : TableId) (name : String) : Prop where
  parents : a.SameParents b
  bound : ∀ ⦃m id⦄, ¬ (m = name ∧ id = c) → b.bound? m id = a.bound? m id

theorem findSome?_congr {α : Type} {f g : TableId → Option α} (h : ∀ id ∈ chain, f id = g id) :
    chain.findSome? f = chain.findSome? g := by
  induction chain with
  | nil => rfl
  | cons id chain ih =>
    rw [List.findSome?_cons, List.findSome?_cons, h id List.mem_cons_self,
      ih fun x hx => h x (List.mem_cons_of_mem _ hx)]

namespace DiffersAt

theorem declare (hc : a.contains c = true) (s : Symbol) :
    a.DiffersAt (a.declare c s).2 c s.name where
  parents := sameParents_declare
  bound m id h := by rw [bound?_declare hc, if_neg h]

theorem erased (a : Arena) (c : TableId) (name : String) :
    a.DiffersAt (a.erased c name) c name where
  parents := sameParents_erased
  bound m id h := by rw [bound?_erased, if_neg h]

/-- Tables other than `c` give the same answers. -/
theorem findSome?_eq (h : a.DiffersAt b c name) (hc : c ∉ chain) :
    chain.findSome? (b.bound? m) = chain.findSome? (a.bound? m) := by
  refine findSome?_congr fun id hid => h.bound ?_
  rintro ⟨-, rfl⟩
  exact hc hid

theorem get_of_exposes (h : a.DiffersAt b c name) (ha : a.Rooted) (hexposes : a.Exposes name c id) :
    b.get id name = match b.bound? name c with
      | some target => .ok (some target)
      | none => a.getAbove c name := by
  obtain ⟨before, after, hchain, hbefore⟩ := hexposes
  have hnodup := ha.nodup hchain
  rw [List.nodup_append, List.nodup_cons] at hnodup
  obtain ⟨-, ⟨hafter, -⟩, hdisjoint⟩ := hnodup
  have hnone : before.findSome? (b.bound? name) = none := by
    rw [h.findSome?_eq fun hmem => hdisjoint c hmem c List.mem_cons_self rfl]
    exact List.findSome?_eq_none_iff.mpr hbefore
  rw [(h.parents.rooted ha).get_eq (h.parents.ancestry hchain), List.findSome?_append, hnone,
    Option.none_or, List.findSome?_cons, h.findSome?_eq hafter, ha.getAbove_eq hchain.of_append]
  cases b.bound? name c <;> rfl

theorem get_of_not_exposes (h : a.DiffersAt b c name) (ha : a.Rooted)
    (hid : a.contains id = true) (hnot : ¬ (m = name ∧ a.Exposes name c id)) :
    b.get id m = a.get id m := by
  obtain ⟨chain, hchain⟩ := ha.exists_ancestry hid
  rw [(h.parents.rooted ha).get_eq (h.parents.ancestry hchain), ha.get_eq hchain]
  congr 1
  by_cases hm : m = name
  · subst hm
    by_cases hc : c ∈ chain
    · -- Some table in front of `c` answers, in both arenas in the same way.
      obtain ⟨before, after, rfl⟩ := List.append_of_mem hc
      have hnodup := ha.nodup hchain
      rw [List.nodup_append] at hnodup
      have hanswered : before.findSome? (a.bound? m) ≠ none := by
        intro hnone
        exact hnot ⟨rfl, before, after, hchain, List.findSome?_eq_none_iff.mp hnone⟩
      obtain ⟨target, htarget⟩ := Option.ne_none_iff_exists'.mp hanswered
      have hsame : before.findSome? (b.bound? m) = before.findSome? (a.bound? m) :=
        h.findSome?_eq fun hmem => hnodup.2.2 c hmem c List.mem_cons_self rfl
      rw [List.findSome?_append, List.findSome?_append, hsame, htarget, Option.some_or,
        Option.some_or]
    · exact h.findSome?_eq hc
  · refine findSome?_congr fun id _ => h.bound ?_
    exact fun hboth => hm hboth.1

/-- Where the second arena answers at `c`, and where it does not, all lookups are settled. -/
theorem redirects (h : a.DiffersAt b c name) (ha : a.Rooted) :
    a.Redirects b c name (match b.bound? name c with
      | some target => .ok (some target)
      | none => a.getAbove c name) where
  answers id hid m := by
    obtain ⟨chain, hchain⟩ := (h.parents.rooted ha).exists_ancestry (h.parents.contains hid)
    exact ⟨_, (h.parents.rooted ha).get_eq hchain⟩
  exposed id hexposes := h.get_of_exposes ha hexposes
  other id hid m hnot := h.get_of_not_exposes ha hid hnot

end DiffersAt

/-! ## Declaring and taking back -/

theorem tables_erased_declare (h : a.bound? s.name c = none) :
    ((a.declare c s).2.erased c s.name).tables = a.tables := by
  refine Array.ext_getElem? fun i => ?_
  simp only [Arena.erased, Arena.declare, Array.getElem?_modify]
  split
  case isFalse => rfl
  case isTrue hi =>
    subst hi
    cases ht : a.tables[c.index]? with
    | none => rfl
    | some t =>
      have hfree : t.find? s.name = none := by
        rwa [bound?, ht, Option.bind_some] at h
      rw [Option.map_some, Option.map_some, Table.erase_bind, Table.erase_eq_self hfree]

theorem chainFrom_congr (h : b.tables = a.tables) (limit : Nat) (start : Option TableId) :
    b.chainFrom limit start = a.chainFrom limit start := by
  induction limit generalizing start with
  | zero => rw [chainFrom, chainFrom]
  | succ limit ih =>
    cases start with
    | none => simp only [chainFrom]
    | some id => rw [chainFrom, chainFrom, h, ih]

/-- A search depends on tables only. -/
theorem search_congr {α : Type} (h : b.tables = a.tables) (f : Table → Option α) (id : TableId) :
    b.search f (b.chain id) = a.search f (a.chain id) := by
  have htable (outer : TableId) : b.table outer = a.table outer := by simp only [table, h]
  have hsearch (ids : List TableId) : b.search f ids = a.search f ids := by
    induction ids with
    | nil => rfl
    | cons outer rest ih => rw [search, search, htable, ih]
  rw [chain, chain, chainFrom_congr h, h, hsearch]

/-- Declaring a name in a table leads the lookups that come as far as the table to the new
symbol, and taking a name out of the table sends them on to the parent of the table. No other
lookup changes. A name that the table did not bind can be declared and taken out again without
a trace: all lookups are as before, and so is the sight of every older symbol. -/
theorem Rooted.lookups_redirected (h : a.Rooted) (hc : a.contains c = true) (s : Symbol)
    (name : String) :
    (∃ new b, a.add c s = .ok (new, b) ∧ a.Redirects b c s.name (.ok (some new))) ∧
      (∃ found b, a.delete c name = .ok (found, b) ∧
        a.Redirects b c name (a.getAbove c name)) ∧
      (a.getLocal c s.name = .ok none → ∃ new b d, a.add c s = .ok (new, b) ∧
        b.delete c s.name = .ok (true, d) ∧ (∀ id m, d.get id m = a.get id m) ∧
        ∀ id target, target.index < a.symbols.size →
          d.isVisible id target = a.isVisible id target) := by
  have hadd : a.add c s = .ok (a.declare c s) := add_eq_ok.mpr ⟨hc, rfl⟩
  have hnew : (a.declare c s).2.bound? s.name c = some (a.declare c s).1 := by
    rw [bound?_declare hc, if_pos ⟨rfl, rfl⟩]
  refine ⟨⟨_, _, hadd, ?_⟩, ⟨_, _, delete_eq_ok.mpr ⟨hc, rfl, rfl⟩, ?_⟩, fun hfree => ?_⟩
  · have hredirects := (DiffersAt.declare hc s).redirects h
    rwa [hnew] at hredirects
  · have hgone : (a.erased c name).bound? name c = none := by
      rw [bound?_erased, if_pos ⟨rfl, rfl⟩]
    have hredirects := (DiffersAt.erased a c name).redirects h
    rwa [hgone] at hredirects
  · obtain ⟨t, ht⟩ := exists_table_of_contains hc
    have hbound : a.bound? s.name c = none := by
      rw [bound?_of_table ht]
      exact (getLocal_eq_ok ht).mp hfree
    have htables := tables_erased_declare hbound
    have hdelete : (a.declare c s).2.delete c s.name =
        .ok (true, (a.declare c s).2.erased c s.name) := by
      refine delete_eq_ok.mpr ⟨sameParents_declare.contains hc, ?_, rfl⟩
      rw [hnew, Option.isSome_some]
    refine ⟨_, _, _, hadd, hdelete, fun id m => search_congr htables _ id, ?_⟩
    intro id target htarget
    have hsymbol : ((a.declare c s).2.erased c s.name).symbol target = a.symbol target := by
      simp only [symbol, erased, declare, Array.getElem?_push, if_neg (Nat.ne_of_lt htarget)]
    simp only [isVisible, hsymbol, search_congr htables]

/-- Tables in one line, of which the outermost was opened last. All but the innermost bind `x`,
so that it can be declared there and taken back, and declared anew in the middle. -/
theorem lookups_redirected_opened_late :
    let a : Arena :=
      { tables := #[⟨[("x", ⟨0⟩)], some ⟨2⟩⟩, ⟨[], some ⟨0⟩⟩, ⟨[("x", ⟨1⟩)], none⟩]
        symbols := #[.declared "x" .number, .declared "x" .string] }
    a.Rooted ∧ a.contains ⟨1⟩ = true ∧ a.getLocal ⟨1⟩ "x" = .ok none ∧
      (∃ new b, a.add ⟨1⟩ (.declared "x" .string) = .ok (new, b) ∧
        a.Redirects b ⟨1⟩ "x" (.ok (some new))) ∧
      (∃ found b, a.delete ⟨0⟩ "x" = .ok (found, b) ∧
        a.Redirects b ⟨0⟩ "x" (.ok (some ⟨1⟩))) ∧
      ∃ new b d, a.add ⟨1⟩ (.declared "x" .string) = .ok (new, b) ∧
        b.delete ⟨1⟩ "x" = .ok (true, d) ∧ (∀ id m, d.get id m = a.get id m) ∧
        ∀ id target, target.index < a.symbols.size →
          d.isVisible id target = a.isVisible id target := by
  intro a
  have hacyclic : a.Acyclic := by
    refine acyclic_of_rank (fun id => (id.index + 1) % 3) ?_
    intro ⟨i⟩ t p ht hp
    have htable := table_eq_ok.mp ht
    rcases i with _ | _ | _ | i
    · cases htable
      cases hp
      decide
    · cases htable
      cases hp
      decide
    · cases htable
      cases hp
    · cases htable
  have hrooted : a.Rooted := ⟨by decide, hacyclic⟩
  have hfree : a.getLocal ⟨1⟩ "x" = .ok none := by decide
  obtain ⟨hadd, -, hback⟩ :=
    hrooted.lookups_redirected (c := ⟨1⟩) (by decide) (.declared "x" .string) "x"
  obtain ⟨-, hdelete, -⟩ :=
    hrooted.lookups_redirected (c := ⟨0⟩) (by decide) (.declared "x" .string) "x"
  exact ⟨hrooted, by decide, hfree, hadd, hdelete, hback hfree⟩

end LineScript.Arena
