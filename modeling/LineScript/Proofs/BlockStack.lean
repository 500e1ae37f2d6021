import LineScript.Proofs.Skipping

/-!
# The stack of blocks

A statement runs in the table of its block, which `Statement.run` is told. An executor finds
that table itself. It keeps the blocks that it is in on a stack, pushes the table of a block
when it enters the block and pops it when it leaves, and on the way it notes errors and tells
events one by one. `Machine` is an executor at work with all that it changes, and a
`StackExecutor` is what is left of it between two runs.

Whatever happens in a block, an error that ends the run included, the block is left the way it
was entered. Only a fault breaks off without leaving anything. So a machine does what the
statements do in the table on top of its stack (`Machine.follows_execAll`), and an executor has
no block on its stack between runs. Its past is seen in nothing but the errors that it noted
and the position of a flush that fails before any statement was begun
(`StackExecutor.execute_of_reached`).
-/

namespace LineScript

/-! ## Machines -/

/-- An executor in the middle of a run. -/
structure Machine (σ : Type) extends State σ where
  /-- The tables of the blocks that it is in, the innermost first. -/
  blocks : List TableId
  errors : List RuntimeError
  log : List Event

namespace Machine

variable {σ : Type}

/-- The table of the innermost block. -/
def table (m : Machine σ) : TableId :=
  m.blocks.head?.getD { index := 0 }

def tell (e : Event) (m : Machine σ) : Machine σ :=
  { m with log := m.log ++ [e] }

def note (e : RuntimeError) (m : Machine σ) : Machine σ :=
  { m with errors := m.errors ++ [e] }

/-- A statement begins. -/
def begin (position : Position) (m : Machine σ) : Machine σ :=
  tell (.statementExecuted position) { m with position }

/-- A statement that holds no statements does its work. -/
def work (m : Machine σ) (f : State σ → State σ × Option Halt) : Machine σ × Option Halt :=
  ({ m with toState := (f m.toState).1 }, (f m.toState).2)

def enter (position : Position) (table : TableId) (m : Machine σ) : Machine σ :=
  tell (.blockEntered position) { m with blocks := table :: m.blocks }

def leave (position : Position) (m : Machine σ) : Machine σ :=
  tell (.blockLeft position) { m with blocks := m.blocks.tail }

/-- Does the work of a block, whose table has to exist. After a fault nothing is done. -/
def inside (position : Position) (table : TableId) (m : Machine σ)
    (work : Machine σ → Machine σ × Option Halt) : Machine σ × Option Halt :=
  if m.arena.contains table then
    let result := work (m.enter position table)
    match result.2 with
    | some (.fault _) => result
    | _ => (result.1.leave position, result.2)
  else (m, some (.error { position, cause := .missingBlock }))

mutual

def exec (out : Sink σ) (m : Machine σ) : Statement → Machine σ × Option Halt
  | .null => (m, none)
  | .declare position name target kind initial =>
    (m.begin position).work (Work.declare m.table name target kind initial).settle
  | .assign position name target compound e =>
    (m.begin position).work (Work.assign m.table name target compound e).settle
  | .print position newline payload =>
    (m.begin position).work fun s => s.print out m.table newline payload
  | .block position inner body =>
    (m.begin position).inside position inner fun m => m.execAll out body

/-- Executes statements in order. An error that is not fatal is noted. -/
def execAll (out : Sink σ) (m : Machine σ) : List Statement → Machine σ × Option Halt
  | [] => (m, none)
  | statement :: rest =>
    let first := m.exec out statement
    match first.2 with
    | none => first.1.execAll out rest
    | some (.error e) =>
      if e.isFatal then first else ((first.1.note e).tell (.statementSkipped e)).execAll out rest
    | some (.fault _) => first

end

/-- After the root block the sink is flushed. -/
def finish (out : Sink σ) (result : Machine σ × Option Halt) : Machine σ × Option Halt :=
  match result.2 with
  | some _ => result
  | none => result.1.work fun s => s.flush out

end Machine

/-! ## Executors -/

/-- An executor together with its stack, the innermost block first. -/
structure StackExecutor extends Executor where
  blocks : List TableId

/-- What a run leaves, with the stack at its end. -/
structure StackRun (σ : Type) extends Run σ where
  blocks : List TableId

namespace StackExecutor

variable {σ : Type}

def fresh : StackExecutor :=
  { Executor.fresh with blocks := [] }

/-- The machine that begins a run. -/
def start (x : StackExecutor) (p : Program) (sink : σ) : Machine σ :=
  { arena := p.arena, sink, position := x.position, blocks := x.blocks, errors := x.errors,
    log := [.executing p.arena.tables.size] }

/-- What a machine leaves at the end of a run. -/
def stopped (p : Program) (m : Machine σ) (fault : Option Fault) : StackRun σ :=
  { executor := { position := m.position, errors := m.errors }
    program := { p with arena := m.arena }
    sink := m.sink
    log := m.log
    fault
    blocks := m.blocks }

/-- Executes a program. An error that ends the run is noted like the others. -/
def execute (out : Sink σ) (x : StackExecutor) (p : Program) (sink : σ) : StackRun σ :=
  let result := Machine.finish out <|
    (x.start p sink).inside p.root.position p.root.table fun m => m.execAll out p.root.body
  match result.2 with
  | some (.fault f) => stopped p result.1 (some f)
  | some (.error e) =>
    let m := (result.1.note e).tell (.aborted e)
    stopped p (m.tell (.executed m.errors.length)) none
  | none => stopped p (result.1.tell (.executed result.1.errors.length)) none

end StackExecutor

/-- The executor that a run leaves behind. -/
def StackRun.next {σ : Type} (run : StackRun σ) : StackExecutor :=
  { run.executor with blocks := run.blocks }

/-! ## Machines do what statements do -/

theorem Halt.fault?_of_goes {halt : Option Halt} (h : stops halt = false) :
    fault? halt = none := by
  cases halt with
  | none => rfl
  | some halt =>
    cases halt with
    | error e => rfl
    | fault f => cases h

namespace Machine

variable {σ : Type} {out : Sink σ} {m : Machine σ} {effect : Effect σ}
variable {result : Machine σ × Option Halt} {statement : Statement}

/-- The machine had this effect. Unless it broke off with a fault, it left every block that it
entered. -/
structure Follows (m : Machine σ) (effect : Effect σ) (result : Machine σ × Option Halt) :
    Prop where
  halt : result.2 = effect.halt
  state : result.1.toState = effect.state
  errors : result.1.errors = m.errors ++ effect.errors
  log : result.1.log = m.log ++ effect.log
  blocks : Halt.fault? effect.halt = none → result.1.blocks = m.blocks

theorem follows_work (m : Machine σ) (position : Position)
    (f : State σ → State σ × Option Halt) :
    m.Follows (Statement.begin position m.toState f) ((m.begin position).work f) :=
  ⟨rfl, rfl, (List.append_nil _).symm, rfl, fun _ => rfl⟩

section block

variable {position : Position} {table : TableId}

/-- A block is left as it was entered, unless there was a fault. -/
theorem Follows.leave (h : (m.enter position table).Follows effect result)
    (hfault : Halt.fault? effect.halt = none) :
    m.Follows { effect with log := .blockEntered position :: effect.log ++ [.blockLeft position] }
      (result.1.leave position, result.2) where
  halt := h.halt
  state := h.state
  errors := h.errors
  log := by simp [Machine.leave, tell, h.log, enter]
  blocks _ := by simp [Machine.leave, tell, h.blocks hfault, enter]

theorem Follows.abandon {f : Fault} (h : (m.enter position table).Follows effect result)
    (hfault : effect.halt = some (.fault f)) :
    m.Follows { effect with log := .blockEntered position :: effect.log ++ [] } result where
  halt := h.halt
  state := h.state
  errors := h.errors
  log := by simp [h.log, enter, tell]
  blocks hnone := by simp [hfault, Halt.fault?] at hnone

theorem follows_inside (work : State σ → Effect σ) (exec : Machine σ → Machine σ × Option Halt)
    (h : (m.enter position table).Follows (work m.toState) (exec (m.enter position table))) :
    m.Follows (Statement.inside position table m.toState work) (m.inside position table exec) := by
  cases hcontains : m.arena.contains table with
  | false =>
    rw [Statement.inside_of_missing hcontains, inside, hcontains]
    exact ⟨rfl, rfl, (List.append_nil _).symm, (List.append_nil _).symm, fun _ => rfl⟩
  | true =>
    rw [Statement.inside_of_contains hcontains, inside, hcontains]
    generalize work m.toState = effect at h ⊢
    generalize exec (m.enter position table) = result at h ⊢
    obtain ⟨t, errors, log, halt⟩ := effect
    obtain ⟨n, halt'⟩ := result
    obtain rfl : halt' = halt := h.halt
    cases halt' with
    | none => exact h.leave rfl
    | some halt =>
      cases halt with
      | error e => exact h.leave rfl
      | fault f => exact h.abandon rfl

end block

/-! ## Statements in a row -/

/-- Notes why a statement was given up, if it was. -/
def pass (halt : Option Halt) (m : Machine σ) : Machine σ :=
  { m with
    errors := m.errors ++ Halt.errors halt
    log := m.log ++ (Halt.errors halt).map .statementSkipped }

theorem execAll_of_stops {rest : List Statement}
    (h : Halt.stops (m.exec out statement).2 = true) :
    m.execAll out (statement :: rest) = m.exec out statement := by
  rw [execAll]
  generalize m.exec out statement = first at h ⊢
  obtain ⟨n, halt⟩ := first
  cases halt with
  | none => cases h
  | some halt =>
    cases halt with
    | error e => exact if_pos h
    | fault f => rfl

theorem execAll_of_goes {rest : List Statement}
    (h : Halt.stops (m.exec out statement).2 = false) :
    m.execAll out (statement :: rest) =
      ((m.exec out statement).1.pass (m.exec out statement).2).execAll out rest := by
  rw [execAll]
  generalize m.exec out statement = first at h ⊢
  obtain ⟨n, halt⟩ := first
  cases halt with
  | none => simp [pass, Halt.errors]
  | some halt =>
    cases halt with
    | error e =>
      simp only [Halt.stops] at h
      simp [pass, Halt.errors, h, note, tell]
    | fault f => cases h

/-- What follows a statement that did not end the run. -/
theorem Follows.cons {later : Effect σ} {last : Machine σ × Option Halt}
    (hfirst : m.Follows effect result) (hgoes : Halt.stops effect.halt = false)
    (hlater : (result.1.pass result.2).Follows later last) :
    m.Follows { later with
      errors := effect.noted ++ later.errors, log := effect.told ++ later.log } last where
  halt := hlater.halt
  state := hlater.state
  errors := by simp [hlater.errors, pass, hfirst.errors, hfirst.halt, Effect.noted]
  log := by simp [hlater.log, pass, hfirst.log, hfirst.halt, Effect.told]
  blocks hfault := (hlater.blocks hfault).trans (hfirst.blocks (Halt.fault?_of_goes hgoes))

mutual

/-- A machine executes a statement in the table on top of its stack. -/
theorem follows_exec (out : Sink σ) : ∀ (statement : Statement) (m : Machine σ),
    m.Follows (statement.run out m.table m.toState) (m.exec out statement)
  | .null, m => by
    rw [exec, Statement.run]
    exact ⟨rfl, rfl, (List.append_nil _).symm, (List.append_nil _).symm, fun _ => rfl⟩
  | .declare .., m => by
    rw [exec, Statement.run]
    exact m.follows_work _ _
  | .assign .., m => by
    rw [exec, Statement.run]
    exact m.follows_work _ _
  | .print .., m => by
    rw [exec, Statement.run]
    exact m.follows_work _ _
  | .block position inner body, m => by
    have hbody := follows_execAll out body ((m.begin position).enter position inner)
    obtain ⟨hhalt, hstate, herrors, hlog, hblocks⟩ := follows_inside
      (fun s => Statement.runAll out inner s body) (fun m => m.execAll out body) hbody
    rw [exec, Statement.run_block_eq]
    exact ⟨hhalt, hstate, herrors, hlog.trans (List.append_assoc ..), hblocks⟩

theorem follows_execAll (out : Sink σ) : ∀ (body : List Statement) (m : Machine σ),
    m.Follows (Statement.runAll out m.table m.toState body) (m.execAll out body)
  | [], m => by
    rw [execAll, Statement.runAll]
    exact ⟨rfl, rfl, (List.append_nil _).symm, (List.append_nil _).symm, fun _ => rfl⟩
  | statement :: rest, m => by
    have hfirst := follows_exec out statement m
    cases hstops : Halt.stops (statement.run out m.table m.toState).halt with
    | true =>
      rw [Statement.runAll_of_stops hstops, execAll_of_stops (by rw [hfirst.halt, hstops])]
      exact hfirst
    | false =>
      have hlater := follows_execAll out rest
        ((m.exec out statement).1.pass (m.exec out statement).2)
      have hstate : ((m.exec out statement).1.pass (m.exec out statement).2).toState =
          (statement.run out m.table m.toState).state := hfirst.state
      have htable : ((m.exec out statement).1.pass (m.exec out statement).2).table = m.table := by
        simp only [table, pass, hfirst.blocks (Halt.fault?_of_goes hstops)]
      rw [htable, hstate] at hlater
      rw [Statement.runAll_of_goes hstops, execAll_of_goes (by rw [hfirst.halt, hstops])]
      exact hfirst.cons hstops hlater

end

theorem Follows.finish {s : State σ} {root : Block}
    (h : m.Follows (Executor.runStatements out s root) result) :
    m.Follows (Executor.runRoot out s root) (finish out result) := by
  cases hend : (Executor.runStatements out s root).halt with
  | some halt =>
    rw [Executor.runRoot_of_halt hend, Machine.finish, h.halt, hend]
    exact h
  | none =>
    have hblocks : result.1.blocks = m.blocks := h.blocks (by rw [hend]; rfl)
    rw [Executor.runRoot_of_none hend, Machine.finish, h.halt, hend, ← h.state]
    exact ⟨rfl, rfl, h.errors, h.log, fun _ => hblocks⟩

end Machine

namespace StackExecutor

variable {σ : Type}

theorem follows_root (out : Sink σ) (x : StackExecutor) (p : Program) (sink : σ) :
    (x.start p sink).Follows
      (Executor.runRoot out (p.start x.toExecutor sink) p.root)
      (Machine.finish out <|
        (x.start p sink).inside p.root.position p.root.table fun m =>
          m.execAll out p.root.body) := by
  refine Machine.Follows.finish ?_
  exact Machine.follows_inside (fun s => Statement.runAll out p.root.table s p.root.body) _
    (Machine.follows_execAll out p.root.body
      ((x.start p sink).enter p.root.position p.root.table))

/-- The stack is a way to find the table of a block, and changes nothing else. -/
theorem toRun_execute (out : Sink σ) (x : StackExecutor) (p : Program) (sink : σ) :
    (x.execute out p sink).toRun = x.toExecutor.execute out p sink := by
  have h := follows_root out x p sink
  unfold execute Executor.execute Program.start at *
  generalize Machine.finish out _ = result at h ⊢
  generalize Executor.runRoot out _ p.root = effect at h ⊢
  obtain ⟨m, halt⟩ := result
  obtain ⟨s, errors, log, halt'⟩ := effect
  have herrors : m.errors = x.errors ++ errors := h.errors
  have hlog : m.log = .executing p.arena.tables.size :: log := h.log
  obtain rfl : halt = halt' := h.halt
  obtain rfl : m.toState = s := h.state
  cases halt with
  | none => simp [stopped, Machine.tell, herrors, hlog]
  | some halt =>
    cases halt with
    | error e => simp [stopped, Machine.tell, Machine.note, herrors, hlog]
    | fault f => simp [stopped, herrors, hlog]

/-- A run that came to an end left every block. -/
theorem blocks_execute (out : Sink σ) (x : StackExecutor) (p : Program) (sink : σ)
    (h : (x.execute out p sink).fault = none) : (x.execute out p sink).blocks = x.blocks := by
  have hfollows := follows_root out x p sink
  obtain ⟨-, -, -, hfault⟩ := Executor.execute_eq out x.toExecutor p sink
  rw [← toRun_execute] at hfault
  have hblocks := hfollows.blocks (hfault.symm.trans h)
  unfold execute
  generalize Machine.finish out _ = result at hblocks ⊢
  obtain ⟨m, halt⟩ := result
  cases halt with
  | none => exact hblocks
  | some halt => cases halt <;> exact hblocks

end StackExecutor

/-! ## Runs that differ in the position -/

section alike

variable {σ : Type} {out : Sink σ} {s t : State σ} {table : TableId} {statement : Statement}

/-- A statement that has a position takes none from the state. -/
theorem State.Alike.run (h : s.Alike t) (hnull : statement ≠ .null) :
    statement.run out table t = statement.run out table s := by
  cases statement with
  | null => exact absurd rfl hnull
  | declare | assign | print => exact h.run_leaf rfl
  | block position inner body =>
    obtain ⟨harena, hsink⟩ := h
    rw [Statement.run_block_eq, Statement.run_block_eq, harena, hsink]

/-- Two runs of a body are the same, unless it has nothing to run. -/
theorem State.Alike.runAll (h : s.Alike t) : ∀ body : List Statement,
    Statement.runAll out table t body = Statement.runAll out table s body ∨
      Statement.runAll out table s body = ⟨s, [], [], none⟩ ∧
        Statement.runAll out table t body = ⟨t, [], [], none⟩
  | [] => .inr ⟨by rw [Statement.runAll], by rw [Statement.runAll]⟩
  | .null :: rest => by
    have hskip (u : State σ) :
        Statement.runAll out table u (.null :: rest) = Statement.runAll out table u rest := by
      simp [Statement.runAll, Statement.run]
    rw [hskip, hskip]
    exact h.runAll rest
  | .declare .. :: rest | .assign .. :: rest | .print .. :: rest | .block .. :: rest => by
    refine .inl ?_
    rw [Statement.runAll, Statement.runAll, h.run (by simp)]

end alike

namespace Executor

variable {σ : Type} {s t : State σ}

/-- The statements of a program do the same, unless none has a position. Then they do nothing
at all. -/
theorem runStatements_of_alike (out : Sink σ) (root : Block) (h : s.Alike t) :
    runStatements out t root = runStatements out s root ∨
      ((runStatements out s root).state = s ∧ (runStatements out s root).errors = [] ∧
        (∀ position, .statementExecuted position ∉ (runStatements out s root).log) ∧
        runStatements out t root = { runStatements out s root with state := t }) := by
  unfold runStatements
  cases hcontains : s.arena.contains root.table with
  | false =>
    rw [Statement.inside_of_missing hcontains,
      Statement.inside_of_missing (by rw [h.arena, hcontains])]
    exact .inr ⟨rfl, rfl, by simp, rfl⟩
  | true =>
    rw [Statement.inside_of_contains hcontains,
      Statement.inside_of_contains (by rw [h.arena, hcontains])]
    obtain hsame | ⟨hs, ht⟩ := h.runAll root.body
    · rw [hsame]
      exact .inl rfl
    · rw [hs, ht]
      exact .inr ⟨rfl, rfl, by simp [Effect.enclosed], rfl⟩

/-- The position of the state is seen only in the failure of a flush. -/
structure SameRoot (out : Sink σ) (s t : State σ) (first second : Effect σ) : Prop where
  alike : first.state.Alike second.state
  fault : Halt.fault? second.halt = Halt.fault? first.halt
  noted : second.noted = first.noted ∨
    (∀ position, .statementExecuted position ∉ first.log) ∧
      ∃ message, (out.flush s.sink).1 = some message ∧
        first.noted = [⟨s.position, .output message⟩] ∧
        second.noted = [⟨t.position, .output message⟩]

theorem runRoot_of_alike (out : Sink σ) (root : Block) (h : s.Alike t) :
    SameRoot out s t (runRoot out s root) (runRoot out t root) := by
  obtain hsame | ⟨hstate, herrors, hlog, ht⟩ := runStatements_of_alike out root h
  · have hroot : runRoot out t root = runRoot out s root := by
      cases hend : (runStatements out s root).halt with
      | some halt =>
        rw [runRoot_of_halt hend, runRoot_of_halt (by rw [hsame, hend]), hsame]
      | none =>
        rw [runRoot_of_none hend, runRoot_of_none (by rw [hsame, hend]), hsame]
    rw [hroot]
    exact ⟨⟨rfl, rfl⟩, rfl, .inl rfl⟩
  · cases hend : (runStatements out s root).halt with
    | some halt =>
      rw [runRoot_of_halt hend, runRoot_of_halt (by rw [ht, hend]), ht]
      exact ⟨by rw [hstate]; exact h, rfl, .inl rfl⟩
    | none =>
      rw [runRoot_of_none hend, runRoot_of_none (by rw [ht, hend]), ht, hstate]
      obtain ⟨halike, ⟨hs, ht⟩ | ⟨message, hs, ht⟩⟩ := flush_of_alike out h
      · exact ⟨halike, by rw [hs, ht], .inl (by simp [Effect.noted, hs, ht])⟩
      · have hanswer : (out.flush s.sink).1 = some message := by
          simpa [State.flush, State.failure] using hs
        refine ⟨halike, by rw [hs, ht]; rfl, .inr ⟨hlog, message, hanswer, ?_, ?_⟩⟩
        · simp [Effect.noted, herrors, hs, Halt.errors, State.failure]
        · simp [Effect.noted, herrors, ht, Halt.errors, State.failure]

theorem mem_log_execute {out : Sink σ} {x : Executor} {p : Program} {sink : σ} {position : Position}
    (h : .statementExecuted position ∈ (x.execute out p sink).log) :
    .statementExecuted position ∈ (runRoot out (p.start x sink) p.root).log := by
  unfold execute at h
  unfold Program.start
  generalize runRoot out _ p.root = effect at h ⊢
  obtain ⟨s, errors, log, halt⟩ := effect
  cases halt with
  | none => simpa using h
  | some halt => cases halt <;> simpa using h

end Executor

/-! ## Executors with a past -/

/-- The executors that come about when programs are run one after the other, whatever the
programs and whatever they wrote to. After a fault there is no executor any more. -/
inductive StackExecutor.Reached : StackExecutor → Prop
  | fresh : Reached .fresh
  | run {σ : Type} {x : StackExecutor} (out : Sink σ) (p : Program) (sink : σ) :
    Reached x → (x.execute out p sink).fault = none → Reached (x.execute out p sink).next

namespace StackExecutor

theorem Reached.blocks {x : StackExecutor} (h : Reached x) : x.blocks = [] := by
  induction h with
  | fresh => rfl
  | run out p sink _ hfault ih => exact (blocks_execute out _ p sink hfault).trans ih

/-- Whatever an executor ran before, it is in no block before and after a run. The run leaves
the same sink and the same arena as that of a fresh executor, and it adds the same errors to
those of the runs before. Only where it began no statement and the flush failed, the position
of that one error is that of the last statement of an earlier run. -/
theorem execute_of_reached {σ : Type} {x : StackExecutor} (hx : Reached x) (out : Sink σ)
    (p : Program) (sink : σ) :
    let run := x.execute out p sink
    let alone := fresh.execute out p sink
    x.blocks = [] ∧ (run.fault = none → run.blocks = []) ∧
      run.toRun = x.toExecutor.execute out p sink ∧
      run.sink = alone.sink ∧ run.program = alone.program ∧ run.fault = alone.fault ∧
      ∃ added, run.executor.errors = x.errors ++ added ∧
        (added = alone.executor.errors ∨
          (∀ position, .statementExecuted position ∉ run.log) ∧
            ∃ message, (out.flush sink).1 = some message ∧
              added = [⟨x.position, .output message⟩] ∧
              alone.executor.errors = [⟨.start, .output message⟩]) := by
  intro run alone
  have hrun : run.toRun = x.toExecutor.execute out p sink := toRun_execute out x p sink
  have halone : alone.toRun = Executor.fresh.execute out p sink := toRun_execute out fresh p sink
  obtain ⟨hexecutor, hprogram, hsink, hfault⟩ := Executor.execute_eq out x.toExecutor p sink
  obtain ⟨hexecutor', hprogram', hsink', hfault'⟩ := Executor.execute_eq out .fresh p sink
  have halike : (p.start x.toExecutor sink).Alike (p.start .fresh sink) := ⟨rfl, rfl⟩
  obtain ⟨hstate, hhalt, hnoted⟩ := Executor.runRoot_of_alike out p.root halike
  refine ⟨hx.blocks, fun h => (blocks_execute out x p sink h).trans hx.blocks, hrun, ?_, ?_, ?_,
    (Executor.runRoot out (p.start x.toExecutor sink) p.root).noted, ?_, ?_⟩
  · rw [hrun, halone, hsink, hsink', hstate.sink]
  · rw [hrun, halone, hprogram, hprogram', hstate.arena]
  · rw [hrun, halone, hfault, hfault', hhalt]
  · rw [hrun, hexecutor]
  · have herrors : alone.executor.errors =
        (Executor.runRoot out (p.start .fresh sink) p.root).noted := by
      rw [halone, hexecutor']
      rfl
    rw [herrors]
    obtain hsame | ⟨hlog, message, hanswer, hfirst, hsecond⟩ := hnoted
    · exact .inl hsame.symm
    · refine .inr ⟨fun position h => ?_, message, hanswer, hfirst, hsecond⟩
      rw [hrun] at h
      exact hlog position (Executor.mem_log_execute h)

/-- After a run that a block without a table ended, an executor is in no block. A failing flush
is then reported at that block, if no statement was begun since. -/
theorem execute_of_reached_missingBlock :
    let arena := (Arena.empty.openTable none).2
    let program (body : List Statement) : Program :=
      { root := { position := .start, table := ⟨0⟩, body }, arena }
    let closed : Buffer := { Buffer.unlimited with flushMessage := some "closed" }
    let x := (fresh.execute Buffer.sink (program [.block ⟨3, 1⟩ ⟨5⟩ []]) .unlimited).next
    let run := x.execute Buffer.sink (program [.null]) closed
    let alone := fresh.execute Buffer.sink (program [.null]) closed
    x.blocks = [] ∧ run.sink = alone.sink ∧ run.program = alone.program ∧
      run.executor.errors = [⟨⟨3, 1⟩, .missingBlock⟩, ⟨⟨3, 1⟩, .output "closed"⟩] ∧
      alone.executor.errors = [⟨.start, .output "closed"⟩] := by
  intro arena program closed x run alone
  have hx : Reached x := .run Buffer.sink _ .unlimited .fresh (by rfl)
  obtain ⟨hblocks, -, -, hsink, hprogram, -⟩ :=
    execute_of_reached hx Buffer.sink (program [.null]) closed
  exact ⟨hblocks, hsink, hprogram, by rfl, by rfl⟩

end StackExecutor

end LineScript
