import LineScript.Proofs.Arithmetic
import LineScript.Proofs.Scope.Ancestry
import LineScript.Proofs.Stores

/-!
# Assignment targets

An assignment computes its value first and looks at its target last. If the value is added to
the old one, the sum is taken before it is known whether the target can be seen at all. So the
checks of the target do not always come to be made: a sum that is too large for an integer is
an overflow, also if the target cannot be seen from the block. In all other cases the target
decides. It has to be seen and to be of the kind of the value, and then the new value is stored
(`Statement.run_assign_of_eval`).
-/

namespace LineScript

namespace Arena

variable {a : Arena}

theorem typed_iff : a.Typed ↔ ∀ s ∈ a.symbols.toList, s.value.kind = s.kind := by
  constructor
  · intro h s hs
    obtain ⟨n, hn⟩ := Array.mem_iff_getElem?.mp (Array.mem_toList_iff.mp hs)
    exact @h ⟨n⟩ s (symbol_eq_ok.mpr hn)
  · intro h id s hs
    exact h s (Array.mem_toList_iff.mpr (Array.mem_of_getElem? (symbol_eq_ok.mp hs)))

end Arena

/-! ## The new value -/

namespace Value

/-- The value behind `+=` added to the old one, unless the sum is too large. -/
def joined? : Value → Value → Option Value
  | .number a, .number b => (a.add? b).map .number
  | .string a, .string b => some (.string (a ++ b))
  | _, value => some value

/-- The value that is to be stored. -/
def assigned? (compound : Bool) (old value : Value) : Option Value :=
  if compound then old.joined? value else some value

variable {compound : Bool} {old value sum : Value}

theorem kind_of_joined? (h : old.joined? value = some sum) : sum.kind = value.kind := by
  cases old with
  | number a =>
    cases value with
    | number b =>
      obtain ⟨n, -, rfl⟩ := Option.map_eq_some_iff.mp h
      rfl
    | string b =>
      cases h
      rfl
  | string a =>
    cases value with
    | number b =>
      cases h
      rfl
    | string b =>
      cases h
      rfl

theorem kind_of_assigned? (h : assigned? compound old value = some sum) :
    sum.kind = value.kind := by
  cases compound with
  | false =>
    cases h
    rfl
  | true => exact kind_of_joined? h

/-- Only two integers can have a sum that is too large. -/
theorem joined?_eq_none_iff :
    old.joined? value = none ↔ ∃ m n, old = .number (.integer m) ∧
      value = .number (.integer n) ∧ OutOfRange (m.toInt + n.toInt) := by
  cases old with
  | string a =>
    cases value with
    | number b => simp [joined?]
    | string b => simp [joined?]
  | number a =>
    cases value with
    | string b => simp [joined?]
    | number b =>
      rw [joined?, Option.map_eq_none_iff]
      cases a with
      | float x => simp [Number.add?, Number.combine?]
      | integer m =>
        cases b with
        | float y => simp [Number.add?, Number.combine?]
        | integer n =>
          have hsum : Number.add? (.integer m) (.integer n) =
              Number.ofInt? (m.toInt + n.toInt) := rfl
          obtain ⟨hout, hnone⟩ | ⟨hin, k, hsome, -⟩ := Number.ofInt?_cases (m.toInt + n.toInt)
          · simp [hsum, hnone, hout]
          · simp [hsum, hsome, hin]

theorem assigned?_eq_none_iff :
    assigned? compound old value = none ↔ compound = true ∧ ∃ m n, old = .number (.integer m) ∧
      value = .number (.integer n) ∧ OutOfRange (m.toInt + n.toInt) := by
  cases compound with
  | false => simp [assigned?]
  | true => simpa [assigned?] using joined?_eq_none_iff

end Value

namespace State

variable {σ : Type} {s : State σ} {table : TableId} {name : String} {target : SymbolId}
variable {value old : Value} {compound : Bool} {e : Expr} {symbol : Symbol}

theorem combine_eq (s : State σ) (table : TableId) (old value : Value) :
    s.combine table old value =
      (old.joined? value).elim (.error (s.scene table).overflow) .ok := by
  cases old with
  | string a => cases value <;> rfl
  | number a =>
    cases value with
    | string b => rfl
    | number b =>
      have happly : (s.scene table).apply a .add b = (s.scene table).inRange (a.add? b) := rfl
      rw [combine, happly, Value.joined?]
      cases a.add? b <;> rfl

theorem assigned_eq (h : e.eval (s.scene table) = .ok value) :
    s.assigned table old compound e =
      (Value.assigned? compound old value).elim (.error (s.scene table).overflow) .ok := by
  unfold assigned Value.assigned?
  rw [h]
  cases compound with
  | false => rfl
  | true => exact s.combine_eq table old value

/-- An assignment whose value is known: the new value is found, and then it is stored. -/
theorem assign_eq_of_eval (name : String) (compound : Bool)
    (hsymbol : s.arena.symbol target = .ok symbol) (h : e.eval (s.scene table) = .ok value) :
    s.assign table name target compound e =
      (Value.assigned? compound symbol.value value).elim (.error (s.failure .overflow))
        (s.store table name target) := by
  rw [assign_eq hsymbol, assigned_eq h]
  cases Value.assigned? compound symbol.value value <;> rfl

/-! ## The target -/

theorem store_of_hidden (h : s.arena.isVisible table target = .ok false) :
    s.store table name target value =
      .error (s.failure (.invalidTarget name .notVisible)) := by
  simp [store, h, Scene.checked, bind, Except.bind, throw, throwThe, MonadExceptOf.throw]

section visible

variable (hvisible : s.arena.isVisible table target = .ok true)
variable (hsymbol : s.arena.symbol target = .ok symbol)

include hvisible hsymbol

theorem store_of_otherKind (hkind : symbol.kind ≠ value.kind) :
    s.store table name target value =
      .error (s.failure (.invalidTarget name (.wrongKind value.kind symbol.kind))) := by
  simp [store, hvisible, hsymbol, hkind, Scene.checked, bind, Except.bind, throw, throwThe,
    MonadExceptOf.throw]

theorem store_of_visible (hkind : symbol.kind = value.kind) :
    s.store table name target value = .ok { s with arena := s.arena.stored target value } := by
  simp [store, hvisible, hsymbol, hkind, Arena.update_eq_stored hsymbol, Scene.checked, bind,
    Except.bind, pure, Except.pure]

end visible

/-! ## The statement -/

/-- What a statement leaves that begins at the position and is given up there. -/
def givenUp (s : State σ) (position : Position) (cause : RuntimeError.Cause) : Effect σ :=
  { state := { s with position }
    errors := []
    log := [.statementExecuted position]
    halt := some (.error { position, cause }) }

/-- What a statement leaves that begins at the position and changes nothing but the arena. -/
def changed (s : State σ) (position : Position) (arena : Arena) : Effect σ :=
  { state := { s with position, arena }
    errors := []
    log := [.statementExecuted position]
    halt := none }

end State

namespace Statement

variable {σ : Type} {out : Sink σ} {s : State σ} {table : TableId} {position : Position}
variable {name : String} {target : SymbolId} {compound : Bool} {e : Expr} {value : Value}
variable {symbol : Symbol} {cause : RuntimeError.Cause}

theorem run_assign_of_error
    (h : State.assign { s with position } table name target compound e =
      .error (.error { position, cause })) :
    (Statement.assign position name target compound e).run out table s =
      s.givenUp position cause := by
  rw [run_assign, begin, h]
  rfl

theorem run_assign_of_ok {arena : Arena}
    (h : State.assign { s with position } table name target compound e =
      .ok { s with position, arena }) :
    (Statement.assign position name target compound e).run out table s =
      s.changed position arena := by
  rw [run_assign, begin, h]
  rfl

/-- What becomes of an assignment whose value can be computed. A sum of integers that is too
large is an overflow, whatever the target is. Otherwise a target that cannot be seen from the
block and a target of another kind than the value are reported, and into any other the new
value is stored. -/
theorem run_assign_of_eval (out : Sink σ) (name : String) (compound : Bool)
    (hlinked : s.arena.Linked) (htyped : s.arena.Typed) (htable : s.arena.contains table = true)
    (hsymbol : s.arena.symbol target = .ok symbol)
    (hvalue : e.eval { arena := s.arena, table, position } = .ok value) :
    let run := (Statement.assign position name target compound e).run out table s
    let overflows := compound = true ∧ ∃ m n, symbol.value = .number (.integer m) ∧
      value = .number (.integer n) ∧ OutOfRange (m.toInt + n.toInt)
    ∃ visible, s.arena.isVisible table target = .ok visible ∧
      (overflows → run = s.givenUp position .overflow) ∧
      (¬ overflows → visible = false →
        run = s.givenUp position (.invalidTarget name .notVisible)) ∧
      (visible = true → symbol.kind ≠ e.kind →
        run = s.givenUp position (.invalidTarget name (.wrongKind e.kind symbol.kind))) ∧
      (¬ overflows → visible = true → symbol.kind = e.kind →
        ∃ new, Value.assigned? compound symbol.value value = some new ∧
          run = s.changed position (s.arena.stored target new)) := by
  intro run overflows
  obtain ⟨visible, hvisible⟩ := hlinked.exists_isVisible htable hsymbol
  let t : State σ := { s with position }
  have hassign := State.assign_eq_of_eval (s := t) name compound hsymbol hvalue
  have hkind : value.kind = e.kind := Expr.kind_of_eval hvalue
  -- Values of different kinds have no sum that could be too large.
  have hsame (h : overflows) : symbol.kind = e.kind := by
    obtain ⟨-, m, n, hold, hnew, -⟩ := h
    rw [← htyped hsymbol, ← hkind, hold, hnew]
    rfl
  have hfits (h : ¬ overflows) :
      ∃ new, Value.assigned? compound symbol.value value = some new ∧ new.kind = e.kind := by
    obtain ⟨new, hnew⟩ := Option.ne_none_iff_exists'.mp (mt Value.assigned?_eq_none_iff.mp h)
    exact ⟨new, hnew, (Value.kind_of_assigned? hnew).trans hkind⟩
  refine ⟨visible, hvisible, ?_, ?_, ?_, ?_⟩
  · intro h
    rw [Value.assigned?_eq_none_iff.mpr h] at hassign
    exact run_assign_of_error hassign
  · rintro h rfl
    obtain ⟨new, hnew, -⟩ := hfits h
    rw [hnew, Option.elim_some, State.store_of_hidden (s := t) hvisible] at hassign
    exact run_assign_of_error hassign
  · rintro rfl hother
    obtain ⟨new, hnew, hnewKind⟩ := hfits (mt hsame hother)
    rw [hnew, Option.elim_some,
      State.store_of_otherKind (s := t) hvisible hsymbol (hnewKind ▸ hother), hnewKind] at hassign
    exact run_assign_of_error hassign
  · rintro h rfl hequal
    obtain ⟨new, hnew, hnewKind⟩ := hfits h
    rw [hnew, Option.elim_some,
      State.store_of_visible (s := t) hvisible hsymbol (hequal.trans hnewKind.symm)] at hassign
    exact ⟨new, hnew, run_assign_of_ok hassign⟩

/-- In an inner block a text is appended to a variable of the outer one. -/
theorem run_assign_of_eval_append :
    let arena : Arena :=
      { tables := #[⟨[("s", ⟨0⟩)], none⟩, ⟨[], some ⟨0⟩⟩]
        symbols := #[⟨"s", .string, .string "a"⟩] }
    let s : State Buffer := { arena, sink := .unlimited, position := .start }
    let e : Expr := .string (.single (.literal "b"))
    let position : Position := ⟨2, 1⟩
    arena.Linked ∧ arena.Typed ∧ arena.contains ⟨1⟩ = true ∧
      e.eval { arena, table := ⟨1⟩, position } = .ok (.string "b") ∧
      (Statement.assign position "s" ⟨0⟩ true e).run Buffer.sink ⟨1⟩ s =
        s.changed position (arena.stored ⟨0⟩ (.string "ab")) := by
  intro arena s e position
  have hlinked : arena.Linked := by decide
  have htyped : arena.Typed := Arena.typed_iff.mpr (by decide)
  have htable : arena.contains ⟨1⟩ = true := by decide
  have hsymbol : s.arena.symbol ⟨0⟩ = .ok ⟨"s", .string, .string "a"⟩ := rfl
  have hvalue : e.eval { arena := s.arena, table := ⟨1⟩, position } = .ok (.string "b") := rfl
  have hvisible : arena.isVisible ⟨1⟩ ⟨0⟩ = .ok true := by rfl
  obtain ⟨visible, hseen, -, -, -, hstored⟩ :=
    run_assign_of_eval Buffer.sink "s" true hlinked htyped htable hsymbol hvalue
  cases hvisible.symm.trans hseen
  obtain ⟨_, ⟨⟩, hrun⟩ := hstored (by simp) rfl rfl
  exact ⟨hlinked, htyped, htable, hvalue, hrun⟩

/-- The target cannot be seen from the block, since nothing binds its name. But the sum with the
largest integer is taken first, and its overflow is all that is reported. -/
theorem run_assign_hidden_overflow :
    let arena : Arena :=
      { tables := #[⟨[], none⟩], symbols := #[⟨"x", .number, .number (.integer Int64.maxValue)⟩] }
    let s : State Buffer := { arena, sink := .unlimited, position := .start }
    let e : Expr := .number (.single (.single (.literal (.integer 1))))
    let position : Position := ⟨2, 1⟩
    let run := (Statement.assign position "x" ⟨0⟩ true e).run Buffer.sink ⟨0⟩ s
    arena.Linked ∧ arena.Typed ∧ arena.contains ⟨0⟩ = true ∧
      e.eval { arena, table := ⟨0⟩, position } = .ok (.number (.integer 1)) ∧
      arena.isVisible ⟨0⟩ ⟨0⟩ = .ok false ∧
      run.halt = some (.error { position, cause := .overflow }) ∧
      ∀ flaw, run.halt ≠ some (.error { position, cause := .invalidTarget "x" flaw }) := by
  intro arena s e position run
  have hhalt : run.halt = some (.error { position, cause := .overflow }) := by decide +kernel
  refine ⟨by decide, Arena.typed_iff.mpr (by decide), by decide, rfl, by rfl, hhalt, ?_⟩
  intro flaw h
  rw [hhalt] at h
  cases h

end Statement

end LineScript
