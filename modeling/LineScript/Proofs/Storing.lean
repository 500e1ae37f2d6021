import LineScript.Statement.Run

/-!
# Work that fails changes nothing

A declaration or an assignment works on the state step by step, and what it has changed when it
stops stays changed. It changes the state only in its last step, when nothing can stop it any more:
all checks come before. What such work comes to is therefore either a new state or the reason why
there is none, as in `State.store`, `State.declare` and `State.assign`, and whoever reasons about
runs has to look at no state but the old and the new one (`Statement.run_declare` and
`Statement.run_assign`).
-/

namespace LineScript

namespace State

variable {σ : Type}

/-- The state after a store, if it is allowed. -/
def store (s : State σ) (table : TableId) (name : String) (target : SymbolId) (value : Value) :
    Except Halt (State σ) := do
  let visible ← Scene.checked (s.arena.isVisible table target)
  if visible then
    let symbol ← Scene.checked (s.arena.symbol target)
    if symbol.kind = value.kind then
      let arena ← Scene.checked (s.arena.update target fun symbol => { symbol with value })
      return { s with arena }
    else throw (s.failure (.invalidTarget name (.wrongKind value.kind symbol.kind)))
  else throw (s.failure (.invalidTarget name .notVisible))

def declare (s : State σ) (table : TableId) (name : String) (target : SymbolId) (kind : Kind)
    (initial : Option Expr) : Except Halt (State σ) := do
  let value ←
    match initial with
    | some e => e.eval (s.scene table)
    | none => pure kind.initial
  s.store table name target value

def assign (s : State σ) (table : TableId) (name : String) (target : SymbolId) (compound : Bool)
    (e : Expr) : Except Halt (State σ) := do
  let value ← e.eval (s.scene table)
  if compound then
    let symbol ← Scene.checked (s.arena.symbol target)
    s.store table name target (← s.combine table symbol.value value)
  else s.store table name target value

/-- The state that is left by what comes to a new state or to none. -/
def settle (s : State σ) : Except Halt (State σ) → State σ × Option Halt
  | .ok t => (t, none)
  | .error halt => (s, some halt)

end State

namespace Work

variable {σ α : Type} {s : State σ} {answer : State σ → Except Halt α} {next : α → Work σ Unit}

/-- Work that asks first changes nothing by that, whether it goes on or stops. -/
theorem settle_ask {later : α → Except Halt (State σ)}
    (h : ∀ a, (next a).settle s = s.settle (later a)) :
    (ask answer >>= next).settle s = s.settle (answer s >>= later) := by
  cases hanswer : answer s with
  | error halt =>
    have hstops : (ask answer >>= next) s = .error halt s := by
      simp only [bind, EStateM.bind, ask, hanswer]
    rw [settle, EStateM.run, hstops]
    rfl
  | ok a =>
    have hgoes : (ask answer >>= next) s = next a s := by
      simp only [bind, EStateM.bind, ask, hanswer]
    rw [settle, EStateM.run, hgoes]
    exact h a

theorem settle_store (s : State σ) (table : TableId) (name : String) (target : SymbolId)
    (value : Value) :
    (Work.store table name target value).settle s = s.settle (s.store table name target value) := by
  refine settle_ask fun visible => ?_
  cases visible with
  | false => rfl
  | true =>
    refine settle_ask fun symbol => ?_
    by_cases hkind : symbol.kind = value.kind
    · rw [if_pos hkind, if_pos hkind]
      exact settle_ask fun arena => rfl
    · rw [if_neg hkind, if_neg hkind]
      rfl

theorem settle_declare (s : State σ) (table : TableId) (name : String) (target : SymbolId)
    (kind : Kind) (initial : Option Expr) :
    (Work.declare table name target kind initial).settle s =
      s.settle (s.declare table name target kind initial) := by
  cases initial with
  | none => exact settle_store s table name target kind.initial
  | some e => exact settle_ask fun value => settle_store s table name target value

theorem settle_assign (s : State σ) (table : TableId) (name : String) (target : SymbolId)
    (compound : Bool) (e : Expr) :
    (Work.assign table name target compound e).settle s =
      s.settle (s.assign table name target compound e) := by
  refine settle_ask fun value => ?_
  cases compound with
  | false => exact settle_store s table name target value
  | true =>
    refine settle_ask fun symbol => settle_ask fun sum => ?_
    exact settle_store s table name target sum

end Work

namespace Statement

variable {σ : Type} {out : Sink σ} {table : TableId} {s : State σ} {position : Position}
variable {name : String} {target : SymbolId}

theorem run_declare {kind : Kind} {initial : Option Expr} :
    (Statement.declare position name target kind initial).run out table s =
      begin position s fun s => s.settle (s.declare table name target kind initial) := by
  rw [run]
  exact congrArg (begin position s) (funext fun s => Work.settle_declare s ..)

theorem run_assign {compound : Bool} {e : Expr} :
    (Statement.assign position name target compound e).run out table s =
      begin position s fun s => s.settle (s.assign table name target compound e) := by
  rw [run]
  exact congrArg (begin position s) (funext fun s => Work.settle_assign s ..)

end Statement

end LineScript
