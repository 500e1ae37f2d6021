import LineScript.Proofs.Reading.Marks
import LineScript.Proofs.Running

/-!
# Statements in the place of others

A sketch is a tree with marks at which statements can be put. If the statements for each
mark cannot be told from others by running them (`Sketch.Interchangeable`), then the whole
tree does the same with the others (`Sketch.runAll_fillAll_congr`), and so does a program
(`Executor.execute_congr`).
-/

namespace LineScript

/-! ## Statements in a row -/

namespace Statement

variable {σ : Type} {out : Sink σ} {s : State σ} {table : TableId} {a : Arena}
variable {body body' later later' : List Statement}

theorem allFit_append :
    AllFit a table (body ++ later) ↔ AllFit a table body ∧ AllFit a table later := by
  induction body with
  | nil => simp [AllFit]
  | cons statement body ih => simp [AllFit, ih, and_assoc]

theorem runAll_append_of_halt {halt : Halt} (h : (runAll out table s body).halt = some halt) :
    runAll out table s (body ++ later) = runAll out table s body := by
  induction body generalizing s with
  | nil => cases h
  | cons statement body ih =>
    rw [List.cons_append]
    cases hstops : Halt.stops (statement.run out table s).halt with
    | true => rw [runAll_of_stops hstops, runAll_of_stops hstops]
    | false =>
      rw [runAll_of_goes hstops] at h
      rw [runAll_of_goes hstops, runAll_of_goes hstops]
      simp only [ih h]

theorem runAll_append_of_none (h : (runAll out table s body).halt = none) :
    runAll out table s (body ++ later) =
      let first := runAll out table s body
      let second := runAll out table first.state later
      { second with errors := first.errors ++ second.errors, log := first.log ++ second.log } := by
  induction body generalizing s with
  | nil => simp [runAll]
  | cons statement body ih =>
    rw [List.cons_append]
    cases hstops : Halt.stops (statement.run out table s).halt with
    | true =>
      rw [runAll_of_stops hstops] at h
      rw [h] at hstops
      cases hstops
    | false =>
      rw [runAll_of_goes hstops] at h
      rw [runAll_of_goes hstops, runAll_of_goes hstops]
      simp only [ih h, List.append_assoc]

/-- Statements that do the same are followed by statements that do the same. -/
theorem runAll_append_congr (h : runAll out table s body = runAll out table s body')
    (hlater : runAll out table (runAll out table s body).state later =
      runAll out table (runAll out table s body).state later') :
    runAll out table s (body ++ later) = runAll out table s (body' ++ later') := by
  cases hhalt : (runAll out table s body).halt with
  | some halt =>
    rw [runAll_append_of_halt hhalt, runAll_append_of_halt (h ▸ hhalt), h]
  | none =>
    rw [runAll_append_of_none hhalt, runAll_append_of_none (h ▸ hhalt), ← h]
    simp only [hlater]

end Statement

/-! ## Trees with marks -/

namespace Sketch

variable {σ : Type} {out : Sink σ} {leave leave' : Nat → List Statement}

/-- Where they fit, the first statements for a mark cannot be told from the second ones. -/
def Interchangeable (out : Sink σ) (leave leave' : Nat → List Statement) : Prop :=
  ∀ (n : Nat) (s : State σ) (table : TableId), Statement.AllFit s.arena table (leave n) →
    s.arena.Sound →
      Statement.runAll out table s (leave n) = Statement.runAll out table s (leave' n)

mutual

/-- A tree does the same with interchangeable statements at its marks. -/
theorem runAll_fill_congr (h : Interchangeable out leave leave') : ∀ (sketch : Sketch)
    {s : State σ} {table : TableId},
    Statement.AllFit s.arena table (sketch.fill leave) → s.arena.Sound →
    Statement.runAll out table s (sketch.fill leave) =
      Statement.runAll out table s (sketch.fill leave')
  | .failed n, s, table, hfit, hsound => by
    rw [fill_failed] at hfit ⊢
    rw [fill_failed]
    exact h n s table hfit hsound
  | .leaf _, _, _, _, _ => by rw [fill_leaf, fill_leaf]
  | .block position inner body, s, table, hfit, hsound => by
    rw [fill_block] at hfit ⊢
    rw [fill_block]
    obtain ⟨⟨⟨t, ht, -⟩, hbody⟩, -⟩ := hfit
    have hinside := runAll_fillAll_congr h body (s := { s with position }) hbody hsound
    have hcontains : Arena.contains s.arena inner = true := Arena.contains_of_table ht
    simp only [Statement.runAll, Statement.run, Statement.inside, hcontains, if_true, hinside]

theorem runAll_fillAll_congr (h : Interchangeable out leave leave') : ∀ (sketches : List Sketch)
    {s : State σ} {table : TableId},
    Statement.AllFit s.arena table (fillAll leave sketches) → s.arena.Sound →
    Statement.runAll out table s (fillAll leave sketches) =
      Statement.runAll out table s (fillAll leave' sketches)
  | [], _, _, _, _ => by rw [fillAll_nil, fillAll_nil]
  | sketch :: later, s, table, hfit, hsound => by
    rw [fillAll_cons] at hfit ⊢
    rw [fillAll_cons]
    obtain ⟨hfirst, hlater⟩ := Statement.allFit_append.mp hfit
    have hsafe := Statement.safe_runAll out (sketch.fill leave) hfirst hsound
    exact Statement.runAll_append_congr (runAll_fill_congr h sketch hfirst hsound)
      (runAll_fillAll_congr h later (hlater.mono hsafe.leads.shape) hsafe.leads.sound)

end

end Sketch

/-- Programs that differ in interchangeable statements do the same. -/
theorem Executor.execute_congr {σ : Type} {out : Sink σ} {leave leave' : Nat → List Statement}
    {p q : Program} {sketch : OpenBlock} (h : Sketch.Interchangeable out leave leave')
    (hp : p.Sound) (harena : q.arena = p.arena) (hroot : p.root = sketch.fill leave)
    (hroot' : q.root = sketch.fill leave') (x : Executor) (sink : σ) :
    let run := x.execute out p sink
    let run' := x.execute out q sink
    run'.sink = run.sink ∧ run'.executor = run.executor ∧
      run'.program.arena = run.program.arena := by
  obtain ⟨t, ht⟩ := hp.root
  have hbody := hp.body
  rw [hroot] at ht hbody
  have hcontains : Arena.contains p.arena sketch.table = true := Arena.contains_of_table ht
  have hall := Sketch.runAll_fillAll_congr h sketch.body (s := p.start x sink) hbody hp.arena
  have hrun : runRoot out (q.start x sink) q.root = runRoot out (p.start x sink) p.root := by
    have hstart : q.start x sink = p.start x sink := by
      rw [Program.start, Program.start, harena]
    rw [hstart, hroot, hroot']
    have hinside : runStatements out (p.start x sink) (sketch.fill leave') =
        runStatements out (p.start x sink) (sketch.fill leave) := by
      unfold runStatements
      rw [Statement.inside_of_contains hcontains, Statement.inside_of_contains hcontains]
      exact congrArg (Effect.enclosed sketch.position) hall.symm
    cases hhalt : (runStatements out (p.start x sink) (sketch.fill leave)).halt with
    | some halt => rw [runRoot_of_halt hhalt, runRoot_of_halt (hinside ▸ hhalt), hinside]
    | none => rw [runRoot_of_none hhalt, runRoot_of_none (hinside ▸ hhalt), hinside]
  obtain ⟨hexecutor, hprogram, hsink, -⟩ := execute_eq out x p sink
  obtain ⟨hexecutor', hprogram', hsink', -⟩ := execute_eq out x q sink
  rw [hrun] at hexecutor' hprogram' hsink'
  exact ⟨hsink'.trans hsink.symm, hexecutor'.trans hexecutor.symm, by rw [hprogram, hprogram']⟩

end LineScript
