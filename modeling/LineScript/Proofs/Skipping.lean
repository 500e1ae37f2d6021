import LineScript.Proofs.Running

/-!
# Failed statements are skipped and nothing else

An error that is not fatal ends its own statement only. To say that nothing of such a
statement stays, a run is compared with the run of another program: `Program.cleared` is
the program in which every statement that was given up is null. It writes the same bytes,
leaves the same arena, and has no errors but the one that ended the first run
(`Executor.execute_cleared`).

Null statements have no position. The two runs therefore agree in everything but the
position of the last statement (`State.Alike`), and the only place where that is seen is
the report of a flush that fails.
-/

namespace LineScript

/-! ## Cleared programs -/

namespace Statement

variable {σ : Type}

mutual

/-- The statement without the parts that are given up when it runs in this state. -/
def cleared (out : Sink σ) (table : TableId) (s : State σ) : Statement → Statement
  | .block position inner body =>
    .block position inner
      (if s.arena.contains inner then clearedAll out inner { s with position } body else body)
  | statement =>
    if Halt.skips (statement.run out table s).halt then .null else statement

/-- The statements without those that are given up. What is never reached is kept. -/
def clearedAll (out : Sink σ) (table : TableId) (s : State σ) : List Statement → List Statement
  | [] => []
  | statement :: rest =>
    let first := statement.run out table s
    statement.cleared out table s ::
      if Halt.stops first.halt then rest else clearedAll out table first.state rest

end

end Statement

/-- The program without the statements that are given up when the executor runs it. -/
def Program.cleared {σ : Type} (out : Sink σ) (x : Executor) (sink : σ) (p : Program) : Program :=
  let body :=
    if p.arena.contains p.root.table then
      Statement.clearedAll out p.root.table (p.start x sink) p.root.body
    else p.root.body
  { p with root := { p.root with body } }

/-! ## Two runs up to the position -/

/-- The states differ at most in the position of the last statement. -/
structure State.Alike {σ : Type} (s t : State σ) : Prop where
  arena : t.arena = s.arena
  sink : t.sink = s.sink

/-- The second effect is the first without what was given up. -/
structure Effect.ClearedTo {σ : Type} (first second : Effect σ) : Prop where
  alike : first.state.Alike second.state
  skipped : ∀ e ∈ first.errors, e.isFatal = false
  errors : second.errors = []
  halt : second.halt = if Halt.skips first.halt then none else first.halt

section run

variable {σ : Type} {out : Sink σ} {s t : State σ} {table : TableId} {position : Position}
variable {statement : Statement}

theorem State.Alike.begin (h : s.Alike t) (position : Position) :
    State.Alike { s with position } { t with position } :=
  ⟨h.arena, h.sink⟩

/-- A leaf says itself where it stands. -/
theorem State.Alike.run_leaf (h : s.Alike t) (hleaf : statement.leaf? = some position) :
    statement.run out table t = statement.run out table s := by
  obtain ⟨harena, hsink⟩ := h
  rw [Statement.run_leaf hleaf, Statement.run_leaf hleaf, harena, hsink]

theorem Statement.leaf_run_cleared (hleaf : statement.leaf? = some position) (h : s.Alike t) :
    (statement.run out table s).ClearedTo ((statement.cleared out table s).run out table t) := by
  have hcleared : statement.cleared out table s =
      if Halt.skips (statement.run out table s).halt then .null else statement := by
    cases statement with
    | block => cases hleaf
    | _ => simp only [cleared]
  have herrors : (statement.run out table s).errors = [] := by
    rw [run_leaf hleaf]
  rw [hcleared]
  cases hskips : Halt.skips (statement.run out table s).halt with
  | true =>
    have hstate := run_leaf_of_skips hleaf hskips
    refine ⟨?_, by simp [herrors], rfl, by simp [hskips, run]⟩
    rw [hstate]
    exact ⟨h.arena, h.sink⟩
  | false =>
    simp only [Bool.false_eq_true, if_false, h.run_leaf hleaf]
    exact ⟨⟨rfl, rfl⟩, by simp [herrors], herrors, by simp [hskips]⟩

theorem Effect.ClearedTo.enclosed {first second : Effect σ} (h : first.ClearedTo second)
    (position : Position) : (first.enclosed position).ClearedTo (second.enclosed position) :=
  ⟨h.alike, h.skipped, h.errors, h.halt⟩

/-- A block and the root of a program pass on what happens to their statements. -/
theorem Statement.inside_cleared {body cleared : List Statement} (h : s.Alike t)
    (hbody : s.arena.contains table = true →
      (runAll out table s body).ClearedTo (runAll out table t cleared)) :
    (inside position table s fun s => runAll out table s body).ClearedTo
      (inside position table t fun t => runAll out table t cleared) := by
  cases hcontains : s.arena.contains table with
  | true =>
    rw [inside_of_contains hcontains, inside_of_contains (by rw [h.arena, hcontains])]
    exact (hbody hcontains).enclosed position
  | false =>
    rw [inside_of_missing hcontains, inside_of_missing (by rw [h.arena, hcontains])]
    exact ⟨h, by simp, rfl, rfl⟩

mutual

theorem Statement.run_cleared : ∀ (statement : Statement) {s t : State σ} {table : TableId},
    s.Alike t →
    (statement.run out table s).ClearedTo ((statement.cleared out table s).run out table t)
  | .null, s, t, table, h => by
    have hcleared : Statement.null.cleared out table s = .null := by simp [cleared]
    rw [hcleared, run, run]
    exact ⟨h, by simp, rfl, rfl⟩
  | .declare .., _, _, _, h => Statement.leaf_run_cleared rfl h
  | .assign .., _, _, _, h => Statement.leaf_run_cleared rfl h
  | .print .., _, _, _, h => Statement.leaf_run_cleared rfl h
  | .block position inner body, s, t, table, h => by
    have hbegun := h.begin position
    have hinside : (inside position inner { s with position } fun s =>
        runAll out inner s body).ClearedTo
        (inside position inner { t with position } fun t => runAll out inner t
          (if s.arena.contains inner then clearedAll out inner { s with position } body
            else body)) := by
      refine Statement.inside_cleared hbegun fun hcontains => ?_
      rw [if_pos hcontains]
      exact Statement.runAll_cleared body hbegun
    rw [cleared, run_block_eq, run_block_eq]
    exact ⟨hinside.alike, hinside.skipped, hinside.errors, hinside.halt⟩

theorem Statement.runAll_cleared : ∀ (body : List Statement) {s t : State σ} {table : TableId},
    s.Alike t →
    (runAll out table s body).ClearedTo (runAll out table t (clearedAll out table s body))
  | [], s, t, table, h => by
    rw [clearedAll, runAll, runAll]
    exact ⟨h, by simp, rfl, rfl⟩
  | statement :: rest, s, t, table, h => by
    have hfirst : (statement.run out table s).ClearedTo
        ((statement.cleared out table s).run out table t) := Statement.run_cleared statement h
    rw [clearedAll]
    cases hstops : Halt.stops (statement.run out table s).halt with
    | true =>
      have hhalt := hfirst.halt
      rw [Halt.not_skips_of_stops hstops, if_neg Bool.false_ne_true] at hhalt
      rw [runAll_of_stops hstops, runAll_of_stops (by rw [hhalt, hstops])]
      exact hfirst
    | false =>
      have hnone : ((statement.cleared out table s).run out table t).halt = none := by
        rw [hfirst.halt]
        split
        case isTrue => rfl
        case isFalse hskips =>
          exact Halt.eq_none_of_goes hstops ((Bool.not_eq_true _).mp hskips)
      have hlater : (runAll out table (statement.run out table s).state rest).ClearedTo _ :=
        Statement.runAll_cleared rest hfirst.alike
      rw [runAll_of_goes hstops, runAll_of_goes (by rw [hnone]; rfl)]
      refine ⟨hlater.alike, ?_, ?_, hlater.halt⟩
      · intro e he
        obtain he | he := List.mem_append.mp he
        · obtain he | he := List.mem_append.mp he
          · exact hfirst.skipped e he
          · exact Halt.not_fatal_of_goes hstops e he
        · exact hlater.skipped e he
      · simp [Effect.noted, hfirst.errors, hnone, Halt.errors, hlater.errors]

end

end run

/-! ## Programs -/

namespace Executor

variable {σ : Type} {out : Sink σ} {x : Executor} {p : Program} {sink : σ}

theorem runStatements_cleared :
    (runStatements out (p.start x sink) p.root).ClearedTo
      (runStatements out ((p.cleared out x sink).start x sink) (p.cleared out x sink).root) := by
  have hstart : (p.start x sink).Alike ((p.cleared out x sink).start x sink) := ⟨rfl, rfl⟩
  refine Statement.inside_cleared hstart fun hcontains => ?_
  have hbody : (p.cleared out x sink).root.body =
      Statement.clearedAll out p.root.table (p.start x sink) p.root.body := if_pos hcontains
  rw [hbody]
  exact Statement.runAll_cleared p.root.body hstart

theorem runStatements_not_skips (out : Sink σ) (s : State σ) (root : Block) :
    Halt.skips (runStatements out s root).halt = false := by
  unfold runStatements
  cases hcontains : s.arena.contains root.table with
  | true =>
    rw [Statement.inside_of_contains hcontains]
    exact Statement.runAll_not_skips root.body s
  | false =>
    rw [Statement.inside_of_missing hcontains]
    rfl

/-- A flush is answered by the sink alone. -/
theorem flush_of_alike (out : Sink σ) {s t : State σ} (h : s.Alike t) :
    (s.flush out).1.Alike (t.flush out).1 ∧
      ((s.flush out).2 = none ∧ (t.flush out).2 = none ∨
        ∃ message, (s.flush out).2 = some (s.failure (.output message)) ∧
          (t.flush out).2 = some (t.failure (.output message))) := by
  have hanswer : out.flush t.sink = out.flush s.sink := by rw [h.sink]
  unfold State.flush
  rw [hanswer]
  generalize out.flush s.sink = answer
  obtain ⟨refusal, sink⟩ := answer
  refine ⟨⟨h.arena, rfl⟩, ?_⟩
  cases refusal with
  | none => exact .inl ⟨rfl, rfl⟩
  | some message => exact .inr ⟨message, rfl, rfl⟩

/-- The root of a cleared program ends like that of the program itself, but for the
position of a flush that fails. -/
structure EndsAlike (first second : Effect σ) : Prop where
  alike : first.state.Alike second.state
  skipped : ∀ e ∈ first.errors, e.isFatal = false
  errors : second.errors = []
  fault : Halt.fault? second.halt = Halt.fault? first.halt
  fatal : ∀ e ∈ Halt.error? first.halt, e.isFatal = true
  cause : (Halt.error? second.halt).map RuntimeError.cause =
    (Halt.error? first.halt).map RuntimeError.cause

theorem runRoot_cleared (out : Sink σ) (x : Executor) (p : Program) (sink : σ) :
    let first := runRoot out (p.start x sink) p.root
    let second := runRoot out ((p.cleared out x sink).start x sink) (p.cleared out x sink).root
    EndsAlike first second ∧
      ((runStatements out (p.start x sink) p.root).halt ≠ none → second.halt = first.halt) := by
  intro first second
  have hcleared : (runStatements out (p.start x sink) p.root).ClearedTo _ := runStatements_cleared
  have hskips := runStatements_not_skips out (p.start x sink) p.root
  have hhalt := hcleared.halt
  rw [hskips, if_neg Bool.false_ne_true] at hhalt
  cases hend : (runStatements out (p.start x sink) p.root).halt with
  | some halt =>
    have hfirst : first = runStatements out (p.start x sink) p.root := runRoot_of_halt hend
    have hsecond : second = _ := runRoot_of_halt (hhalt.trans hend)
    rw [hfirst, hsecond]
    refine ⟨⟨hcleared.alike, hcleared.skipped, hcleared.errors, by rw [hhalt], ?_, by rw [hhalt]⟩,
      fun _ => hhalt⟩
    intro e he
    rw [hend] at he hskips
    cases halt with
    | error e' =>
      cases he
      simpa [Halt.skips] using hskips
    | fault f => cases he
  | none =>
    have hfirst : first = _ := runRoot_of_none hend
    have hsecond : second = _ := runRoot_of_none (hhalt.trans hend)
    rw [hfirst, hsecond]
    obtain ⟨halike, ⟨hnone, hnone'⟩ | ⟨message, hrefused, hrefused'⟩⟩ :=
      flush_of_alike out hcleared.alike
    · refine ⟨⟨halike, hcleared.skipped, hcleared.errors, ?_, ?_, ?_⟩, fun h => absurd rfl h⟩
      · simp [hnone, hnone']
      · simp [hnone, Halt.error?]
      · simp [hnone, hnone']
    · refine ⟨⟨halike, hcleared.skipped, hcleared.errors, ?_, ?_, ?_⟩, fun h => absurd rfl h⟩
      · simp [hrefused, hrefused', State.failure, Halt.fault?]
      · simp [hrefused, State.failure, Halt.error?, RuntimeError.isFatal]
      · simp [hrefused, hrefused', State.failure, Halt.error?]

/-- A program without the statements that were given up writes the same bytes and leaves
the same arena as the program itself. Of its errors only the fatal one is left, if there
was one. Its position can differ only if all statements came to their end and the flush
behind them failed. -/
theorem execute_cleared (out : Sink σ) (x : Executor) (p : Program) (sink : σ) :
    let run := x.execute out p sink
    let again := x.execute out (p.cleared out x sink) sink
    again.sink = run.sink ∧ again.program.arena = run.program.arena ∧ again.fault = run.fault ∧
      ∃ (skipped : List RuntimeError) (ended ended' : Option RuntimeError),
        run.executor.errors = x.errors ++ (skipped ++ ended.toList) ∧
        again.executor.errors = x.errors ++ ended'.toList ∧
        (∀ e ∈ skipped, e.isFatal = false) ∧ (∀ e ∈ ended, e.isFatal = true) ∧
        ended'.map RuntimeError.cause = ended.map RuntimeError.cause ∧
        ((runStatements out (p.start x sink) p.root).halt ≠ none → ended' = ended) := by
  intro run again
  obtain ⟨hexecutor, hprogram, hsink, hfault⟩ := execute_eq out x p sink
  obtain ⟨hexecutor', hprogram', hsink', hfault'⟩ := execute_eq out x (p.cleared out x sink) sink
  obtain ⟨hends, hsame⟩ := runRoot_cleared out x p sink
  refine ⟨?_, ?_, ?_, (runRoot out (p.start x sink) p.root).errors,
    Halt.error? (runRoot out (p.start x sink) p.root).halt,
    Halt.error? (runRoot out ((p.cleared out x sink).start x sink)
      (p.cleared out x sink).root).halt, ?_, ?_, hends.skipped, hends.fatal, hends.cause, ?_⟩
  · rw [hsink, hsink', hends.alike.sink]
  · rw [hprogram, hprogram', hends.alike.arena]
  · rw [hfault, hfault', hends.fault]
  · rw [hexecutor, Effect.noted, Halt.errors_eq_toList]
  · rw [hexecutor', Effect.noted, Halt.errors_eq_toList, hends.errors, List.nil_append]
  · exact fun h => by rw [hsame h]

end Executor

end LineScript
