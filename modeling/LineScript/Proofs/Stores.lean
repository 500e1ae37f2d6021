import LineScript.Proofs.Running

/-!
# What a run may store

A tree and an arena need not belong together: the handles of a tree may lead to tables and
symbols that some other program declared, or nowhere. A run protects the arena all the same.
The places of a tree that can store are its declarations and assignments, and `Arena.Stores`
says what becomes of an arena at such places one after the other: each of them leaves the
arena alone or stores in its symbol, if just then the symbol can be seen from the block of the
place and the value is of the symbol's kind.

Every run makes its stores in this way, whatever tree and arena it is given
(`Statement.stores_runAll`). All that a run keeps follows from this: tables, names and kinds
stay (`Arena.Stores.framed`), and so does the agreement of values with the kinds of their
symbols, however many runs there are.
-/

namespace LineScript

/-! ## Places that store -/

namespace Statement

/-- A place of a tree that stores: the table of the block in which it stands, and the
symbol in which it stores. -/
structure Target where
  table : TableId
  symbol : SymbolId
  deriving DecidableEq

mutual

/-- The places of a statement that store, in the order in which they run. -/
def targets (table : TableId) : Statement → List Target
  | .declare _ _ symbol _ _ | .assign _ _ symbol _ _ => [{ table, symbol }]
  | .block _ inner body => targetsAll inner body
  | .null | .print .. => []

def targetsAll (table : TableId) : List Statement → List Target
  | [] => []
  | statement :: rest => statement.targets table ++ targetsAll table rest

end

end Statement

def Block.targets (block : Block) : List Statement.Target :=
  Statement.targetsAll block.table block.body

namespace Arena

open Statement (Target)

variable {a b c : Arena} {targets more : List Target} {target : Target}

/-- The second arena comes out of the first at these places, each of which may store once. -/
inductive Stores : List Target → Arena → Arena → Prop where
  | done {a : Arena} : Stores [] a a
  | skip {target : Target} {targets : List Target} {a b : Arena} (later : Stores targets a b) :
      Stores (target :: targets) a b
  | store {target : Target} {targets : List Target} {a b : Arena} {name : String} {value : Value}
      (hsees : a.Sees target.table name target.symbol value.kind)
      (later : Stores targets (a.stored target.symbol value) b) :
      Stores (target :: targets) a b

/-- Every symbol holds a value of its kind. -/
def Typed (a : Arena) : Prop :=
  ∀ ⦃id s⦄, a.symbol id = .ok s → s.value.kind = s.kind

/-- The second arena differs from the first in values only. A value that changed is of the
kind of its symbol, and one of the places stores in the symbol and can see it. -/
structure Framed (targets : List Target) (a b : Arena) : Prop where
  tables : b.tables = a.tables
  size : b.symbols.size = a.symbols.size
  symbol : ∀ ⦃id s⦄, a.symbol id = .ok s →
    ∃ value, b.symbol id = .ok { s with value } ∧ (value ≠ s.value → value.kind = s.kind ∧
      ∃ target ∈ targets, target.symbol = id ∧ a.Sees target.table s.name id s.kind)

namespace Stores

theorem refl (targets : List Target) (a : Arena) : Stores targets a a := by
  induction targets with
  | nil => exact .done
  | cons target targets ih => exact .skip ih

theorem append (hab : Stores targets a b) (hbc : Stores more b c) :
    Stores (targets ++ more) a c := by
  induction hab with
  | done => exact hbc
  | skip _ ih => exact .skip (ih hbc)
  | store hsees _ ih => exact .store hsees (ih hbc)

end Stores

/-! ## What stores keep -/

namespace Framed

theorem refl (a : Arena) : Framed targets a a where
  tables := rfl
  size := rfl
  symbol _ s hs := ⟨s.value, hs, fun h => absurd rfl h⟩

theorem mono (h : Framed targets a b) (hsub : ∀ t ∈ targets, t ∈ more) : Framed more a b where
  tables := h.tables
  size := h.size
  symbol id s hs := by
    obtain ⟨value, hb, hchanged⟩ := h.symbol hs
    refine ⟨value, hb, fun hne => ?_⟩
    obtain ⟨hkind, t, ht, hid, hsees⟩ := hchanged hne
    exact ⟨hkind, t, hsub t ht, hid, hsees⟩

/-- A store that is allowed changes one value. -/
theorem stored {name : String} {value : Value}
    (hsees : a.Sees target.table name target.symbol value.kind) :
    Framed [target] a (a.stored target.symbol value) where
  tables := rfl
  size := by simp [Arena.stored]
  symbol id s hs := by
    by_cases hid : id = target.symbol
    · subst hid
      have hholds := hsees.1
      obtain ⟨r, hr, rfl, hkind⟩ := hholds
      rw [hs] at hr
      cases hr
      refine ⟨value, symbol_stored_self hs, fun _ => ⟨hkind.symm, target, ?_, rfl, ?_⟩⟩
      · exact List.mem_singleton_self target
      · rwa [hkind]
    · exact ⟨s.value, (symbol_stored_of_ne hid).trans hs, fun h => absurd rfl h⟩

/-- What is seen depends on no value. -/
theorem sees (h : Framed targets a b) {table : TableId} {name : String} {id : SymbolId}
    {kind : Kind} (hsees : b.Sees table name id kind) (hid : ∃ s, a.symbol id = .ok s) :
    a.Sees table name id kind := by
  have htable (outer : TableId) : b.table outer = a.table outer := by
    simp only [Arena.table, h.tables]
  obtain ⟨⟨r, hr, rfl, rfl⟩, outer, henc, t, ht, hfind⟩ := hsees
  obtain ⟨s, hs⟩ := hid
  obtain ⟨value, hb, -⟩ := h.symbol hs
  rw [hr] at hb
  cases hb
  refine ⟨⟨s, hs, rfl, rfl⟩, outer, ?_, t, (htable outer).symm.trans ht, hfind⟩
  clear hfind ht
  induction henc with
  | self => exact .self
  | parent hu hp _ ih => exact .parent ((htable _).symm.trans hu) hp ih

theorem trans (hab : Framed targets a b) (hbc : Framed more b c) :
    Framed (targets ++ more) a c where
  tables := hbc.tables.trans hab.tables
  size := hbc.size.trans hab.size
  symbol id s hs := by
    obtain ⟨value, hb, hfirst⟩ := hab.symbol hs
    obtain ⟨value', hc, hsecond⟩ := hbc.symbol hb
    refine ⟨value', hc, fun hne => ?_⟩
    -- A value that changed over both parts changed in the second part or kept there what the
    -- first part stored.
    by_cases hlast : value' = value
    · subst hlast
      obtain ⟨hkind, t, ht, hid, hsees⟩ := hfirst hne
      exact ⟨hkind, t, List.mem_append_left _ ht, hid, hsees⟩
    · obtain ⟨hkind, t, ht, hid, hsees⟩ := hsecond hlast
      exact ⟨hkind, t, List.mem_append_right _ ht, hid, hab.sees hsees ⟨s, hs⟩⟩

theorem typed (h : Framed targets a b) (ha : a.Typed) : b.Typed := by
  intro id r hr
  obtain ⟨s, hs⟩ : ∃ s, a.symbol id = .ok s := by
    have hid := index_lt_of_symbol hr
    rw [h.size] at hid
    exact ⟨a.symbols[id.index], symbol_eq_ok.mpr (Array.getElem?_eq_getElem hid)⟩
  obtain ⟨value, hb, hchanged⟩ := h.symbol hs
  rw [hr] at hb
  cases hb
  by_cases hsame : value = s.value
  · subst hsame
    exact ha hs
  · exact (hchanged hsame).1

end Framed

theorem Stores.framed (h : Stores targets a b) : Framed targets a b := by
  induction h with
  | done => exact .refl _
  | skip _ ih => exact ih.mono fun t ht => List.mem_cons_of_mem _ ht
  | store hsees _ ih => exact (Framed.stored hsees).trans ih

theorem sees_of_isVisible {table : TableId} {id : SymbolId} {s : Symbol}
    (hs : a.symbol id = .ok s) (h : a.isVisible table id = .ok true) :
    a.Sees table s.name id s.kind := by
  simp only [isVisible, hs, bind, Except.bind, pure, Except.pure] at h
  split at h
  case h_1 => cases h
  case h_2 found hfound =>
    cases found with
    | none => cases h
    | some u =>
      obtain ⟨_, outer, t, hstart, henc, ht, hbound⟩ := exists_of_search_chainFrom hfound
      cases hstart
      split at hbound
      case isTrue hfind => exact ⟨⟨s, hs, rfl, rfl⟩, outer, henc, t, ht, hfind⟩
      case isFalse => cases hbound

end Arena

/-! ## What statements store -/

section run

variable {σ : Type} {out : Sink σ} {s t : State σ} {table : TableId} {name : String}
variable {target : SymbolId} {value : Value}

/-- A store that succeeds was allowed, and stores. -/
theorem State.exists_of_store (h : s.store table name target value = .ok t) :
    ∃ r, s.arena.symbol target = .ok r ∧ s.arena.isVisible table target = .ok true ∧
      r.kind = value.kind ∧ t = { s with arena := s.arena.stored target value } := by
  unfold State.store at h
  cases hvisible : s.arena.isVisible table target with
  | error f => simp [hvisible, Scene.checked, bind, Except.bind] at h
  | ok visible =>
    cases visible with
    | false => simp [hvisible, Scene.checked, bind, Except.bind, throw, throwThe,
        MonadExceptOf.throw] at h
    | true =>
      cases hr : s.arena.symbol target with
      | error f => simp [hvisible, hr, Scene.checked, bind, Except.bind] at h
      | ok r =>
        by_cases hkind : r.kind = value.kind
        · simp only [hvisible, hr, hkind, Arena.update_eq_stored hr, Scene.checked, bind,
            Except.bind, if_true, pure, Except.pure] at h
          cases h
          exact ⟨r, rfl, rfl, hkind, rfl⟩
        · simp [hvisible, hr, hkind, Scene.checked, bind, Except.bind, throw, throwThe,
            MonadExceptOf.throw] at h

theorem State.exists_of_declare {kind : Kind} {initial : Option Expr}
    (h : s.declare table name target kind initial = .ok t) :
    ∃ value, s.declared table kind initial = .ok value ∧
      s.store table name target value = .ok t := by
  rw [State.declare_eq] at h
  exact exists_of_bind h

theorem State.exists_of_assign {compound : Bool} {e : Expr}
    (h : s.assign table name target compound e = .ok t) :
    ∃ r value, s.arena.symbol target = .ok r ∧ s.assigned table r.value compound e = .ok value ∧
      s.store table name target value = .ok t := by
  cases hr : s.arena.symbol target with
  | ok r =>
    rw [State.assign_eq hr] at h
    obtain ⟨value, hvalue, hstore⟩ := exists_of_bind h
    exact ⟨r, value, rfl, hvalue, hstore⟩
  | error f =>
    -- Without a symbol nothing can be stored.
    have hstore (value : Value) : s.store table name target value ≠ .ok t := by
      intro hstore
      obtain ⟨r, hr', -⟩ := State.exists_of_store hstore
      rw [hr] at hr'
      cases hr'
    unfold State.assign at h
    obtain ⟨value, -, hrest⟩ := exists_of_bind h
    cases compound with
    | false => exact absurd hrest (hstore value)
    | true => simp [hr, Scene.checked, bind, Except.bind] at hrest

theorem State.store_eq_ok (h : s.store table name target value = .ok t) :
    Arena.Stores [{ table, symbol := target }] s.arena t.arena := by
  obtain ⟨r, hr, hvisible, hkind, rfl⟩ := State.exists_of_store h
  have hsees := Arena.sees_of_isVisible hr hvisible
  exact .store (hkind ▸ hsees) .done

theorem State.declare_eq_ok {kind : Kind} {initial : Option Expr}
    (h : s.declare table name target kind initial = .ok t) :
    Arena.Stores [{ table, symbol := target }] s.arena t.arena := by
  obtain ⟨value, -, hstore⟩ := State.exists_of_declare h
  exact State.store_eq_ok hstore

theorem State.assign_eq_ok {compound : Bool} {e : Expr}
    (h : s.assign table name target compound e = .ok t) :
    Arena.Stores [{ table, symbol := target }] s.arena t.arena := by
  obtain ⟨_, value, -, -, hstore⟩ := State.exists_of_assign h
  exact State.store_eq_ok hstore

namespace Statement

theorem stores_deed {statement : Statement} {a : Arena} {d : Deed}
    (h : statement.deed a table = .ok d) : Arena.Stores (statement.targets table) a d.arena := by
  cases statement with
  | null =>
    cases h
    exact .refl _ a
  | block =>
    cases h
    exact .refl _ a
  | print =>
    rw [arena_of_deed_print h]
    exact .refl _ a
  | declare position name target kind initial =>
    rw [deed] at h
    generalize hwork : State.declare { arena := a, sink := (), position } table name target kind
      initial = work at h
    cases work with
    | error halt => cases h
    | ok t =>
      cases h
      rw [targets]
      exact State.declare_eq_ok hwork
  | assign position name target compound e =>
    rw [deed] at h
    generalize hwork : State.assign { arena := a, sink := (), position } table name target
      compound e = work at h
    cases work with
    | error halt => cases h
    | ok t =>
      cases h
      rw [targets]
      exact State.assign_eq_ok hwork

theorem stores_run_leaf {statement : Statement} {position : Position}
    (hleaf : statement.leaf? = some position) (s : State σ) :
    Arena.Stores (statement.targets table) s.arena (statement.run out table s).state.arena := by
  obtain hsame | ⟨d, hdeed, harena⟩ := arena_run_leaf hleaf s
  · rw [hsame]
    exact .refl _ s.arena
  · rw [harena]
    exact stores_deed hdeed

mutual

/-- The stores of a statement, whatever tree and arena it belongs to. -/
theorem stores_run (out : Sink σ) : ∀ (statement : Statement) (table : TableId) (s : State σ),
    Arena.Stores (statement.targets table) s.arena (statement.run out table s).state.arena
  | .null, _, s => .refl _ s.arena
  | .declare .., _, s => stores_run_leaf rfl s
  | .assign .., _, s => stores_run_leaf rfl s
  | .print .., _, s => stores_run_leaf rfl s
  | .block position inner body, table, s => by
    rw [arena_run_block, targets]
    split
    · exact stores_runAll out body inner { s with position }
    · exact .refl _ s.arena

theorem stores_runAll (out : Sink σ) : ∀ (body : List Statement) (table : TableId) (s : State σ),
    Arena.Stores (targetsAll table body) s.arena (runAll out table s body).state.arena
  | [], _, _ => by
    rw [targetsAll, runAll]
    exact .done
  | statement :: rest, table, s => by
    have hfirst := stores_run out statement table s
    rw [targetsAll]
    obtain hgoes | hstops := arena_runAll_cons rest s
    · rw [hgoes]
      exact hfirst.append (stores_runAll out rest table (statement.run out table s).state)
    · rw [hstops]
      exact hfirst.append (.refl (targetsAll table rest) _)

end

end Statement

end run

/-! ## What programs store -/

namespace Executor

variable {σ : Type}

theorem stores_runRoot (out : Sink σ) (s : State σ) (root : Block) :
    Arena.Stores root.targets s.arena (runRoot out s root).state.arena := by
  rw [arena_runRoot]
  split
  · exact Statement.stores_runAll out root.body root.table s
  · exact .refl _ s.arena

theorem stores_execute (out : Sink σ) (x : Executor) (p : Program) (sink : σ) :
    (x.execute out p sink).program.root = p.root ∧
      Arena.Stores p.root.targets p.arena (x.execute out p sink).program.arena := by
  obtain ⟨-, hprogram, -⟩ := execute_eq out x p sink
  rw [hprogram]
  exact ⟨rfl, stores_runRoot out (p.start x sink) p.root⟩

theorem typed_of_executed {p q : Program} (h : p.Executed q) (hp : p.arena.Typed) :
    q.arena.Typed := by
  induction h with
  | start => exact hp
  | again _ out x sink ih => exact (stores_execute out x _ sink).2.framed.typed ih

/-- A run of any tree on any arena changes nothing but values. It makes its stores at
declarations and assignments of the tree, in their order, each in a symbol that can be seen
there and of a value of the symbol's kind; other values are as before. If values were of the
kinds of their symbols, they are so after any number of runs. -/
theorem execute_framed (out : Sink σ) (x : Executor) (p : Program) (sink : σ) :
    (x.execute out p sink).program.root = p.root ∧
      Arena.Stores p.root.targets p.arena (x.execute out p sink).program.arena ∧
      Arena.Framed p.root.targets p.arena (x.execute out p sink).program.arena ∧
      (p.arena.Typed → ∀ q, p.Executed q → q.arena.Typed) := by
  obtain ⟨hroot, hstores⟩ := stores_execute out x p sink
  exact ⟨hroot, hstores, hstores.framed, fun hp q hq => typed_of_executed hq hp⟩

/-- A tree that declares a string and a number, run twice on an arena of two numbers. Only the
number is stored. -/
theorem execute_framed_foreign :
    let tree := (Program.parse ["var s string = \"a\"", "var n number = 7", "s += \"b\""]).program
    let p : Program :=
      { root := tree.root, arena := (Program.parse ["var i number", "var j number"]).program.arena }
    let first := fresh.execute Buffer.sink p Buffer.unlimited
    let second := first.executor.execute Buffer.sink first.program first.sink
    first.program.arena.symbols[1]? = some ⟨"j", .number, .number (.integer 7)⟩ ∧
      first.program.root = p.root ∧
      Arena.Stores p.root.targets p.arena first.program.arena ∧
      Arena.Framed p.root.targets p.arena first.program.arena ∧
      p.arena.Typed ∧ second.program.arena.Typed := by
  intro tree p first second
  have htyped : p.arena.Typed := (Program.sound_parse _).arena.typed
  obtain ⟨hroot, hstores, hframed, hruns⟩ := execute_framed Buffer.sink fresh p Buffer.unlimited
  refine ⟨by decide +kernel, hroot, hstores, hframed, htyped, ?_⟩
  exact hruns htyped second.program (.again (.again .start ..) ..)

end Executor

end LineScript
