import LineScript.Proofs.Agreement

/-!
# Handles implement lexical scoping

A program that was read without errors does what its names mean: by handles it
writes the same bytes, notes the same errors and ends with the same values as by
names (`Executor.execute_parse_eq_dynamic`). Both runs are followed statement by
statement with `Agrees`.
-/

namespace LineScript

/-! ## Runs -/

section run

variable {σ : Type} {out : Sink σ} {bytes : σ → ByteArray} {start : σ} {s : State σ}
variable {table : TableId} {statement : Statement}

/-- Nothing stopped but, at most, the statement itself. -/
def Halt.Quiet : Option Halt → Prop
  | none => True
  | some (.error e) => e.cause = .overflow
  | some (.fault _) => False

theorem Sink.Lossless.quiet (h : out.Lossless bytes start) {t : σ} {halt : Option Halt}
    (hpermits : out.Permits start t halt) : Halt.Quiet halt := by
  match halt, hpermits with
  | none, _ => trivial
  | some (.error e), .inl ⟨hcause, _⟩ => exact hcause
  | some (.error e), .inr ⟨message, _, u, haccepts, .inl ⟨data, hwrite⟩⟩ =>
    have hnone := (h.write data haccepts).1
    rw [hwrite] at hnone
    cases hnone
  | some (.error e), .inr ⟨message, _, u, haccepts, .inr hflush⟩ =>
    have hnone := (h.flush haccepts).1
    rw [hflush] at hnone
    cases hnone

/-- Behind a statement that was not stopped for good the others run. -/
theorem Statement.runAll_cons_of_quiet (rest : List Statement)
    (h : Halt.Quiet (statement.run out table s).halt) :
    (runAll out table s (statement :: rest)).state =
        (runAll out table (statement.run out table s).state rest).state ∧
      (runAll out table s (statement :: rest)).halt =
        (runAll out table (statement.run out table s).state rest).halt ∧
      (runAll out table s (statement :: rest)).noted =
        (statement.run out table s).noted ++
          (runAll out table (statement.run out table s).state rest).noted := by
  simp only [runAll, Effect.noted]
  generalize statement.run out table s = first at h ⊢
  obtain ⟨t, errors, log, halt⟩ := first
  cases halt with
  | none => simp [Halt.errors]
  | some halt =>
    cases halt with
    | fault f => exact h.elim
    | error e =>
      have hcause : e.cause = .overflow := h
      have hgoes : e.isFatal = false := by simp [RuntimeError.isFatal, hcause]
      simp [hgoes, Halt.errors]

theorem Statement.run_block (out : Sink σ) (table : TableId) (position : Position)
    (body : List Statement) {inner : TableId} {t : Table} (ht : s.arena.table inner = .ok t) :
    ((Statement.block position inner body).run out table s).state =
        (runAll out inner { s with position } body).state ∧
      ((Statement.block position inner body).run out table s).noted =
        (runAll out inner { s with position } body).noted := by
  have hcontains : Arena.contains { s with position }.arena inner = true :=
    Arena.contains_of_table ht
  simp only [Statement.run, inside, hcontains, if_true, Effect.noted, and_self]

mutual

/-- A statement does the same by handles and by names. -/
theorem Statement.run_agrees (hlossless : out.Lossless bytes start) : ∀ (statement : Statement)
    {s : State σ} {table : TableId} {frames gone : Frames Arena.Binding} {low high : Nat}
    {noted : List RuntimeError} {d : Dynamic.State}, statement.Fits s.arena table →
    statement.Resolved frames → Ascending low high (statement.declared.map SymbolId.index) →
    low ≤ high → Agrees out bytes start low frames gone s noted d →
    ∃ d', Dynamic.run d statement = some d' ∧
      Agrees out bytes start high (statement.scope frames) (gone ++ statement.closed)
        (statement.run out table s).state (noted ++ (statement.run out table s).noted) d'
  | .null, _, _, _, _, _, _, _, d, _, _, _, hle, h =>
    ⟨d, rfl, by simpa [run, closed, scope, Effect.noted, Halt.errors] using h.mono hle⟩
  | .declare .., _, _, _, _, _, _, _, _, hfits, hresolved, hdeclared, _, h => by
    obtain ⟨hlow, hhigh⟩ := hdeclared.2 _ (List.mem_singleton_self _)
    simp only [closed, List.append_nil]
    exact h.run_declare hfits hresolved hlow hhigh
  | .assign .., _, _, _, _, _, _, _, _, hfits, hresolved, _, hle, h => by
    simp only [closed, List.append_nil]
    exact (h.mono hle).run_assign hfits hresolved
  | .print .., _, _, _, _, _, _, _, _, hfits, hresolved, _, hle, h => by
    simp only [closed, List.append_nil]
    exact (h.mono hle).run_print hlossless hfits hresolved
  | .block position inner body, s, table, frames, gone, _, _, _, _, ⟨⟨t, ht, _⟩, hbody⟩,
      hresolved, hdeclared, hle, h => by
    have hbegun : AllFit (State.arena { s with position }) inner body := hbody
    obtain ⟨d', hrun, -, hagrees⟩ := Statement.runAll_agrees hlossless body hbegun hresolved
      hdeclared hle (h.begin position).enter
    rw [List.append_nil] at hagrees
    obtain ⟨d'', hleave, hagrees⟩ := hagrees.leave
    obtain ⟨hstate, hnoted⟩ := Statement.run_block out table position body ht
    refine ⟨d'', ?_, ?_⟩
    · rw [Dynamic.run, hrun]
      exact hleave
    · rw [hstate, hnoted, closed, ← List.append_assoc]
      exact hagrees

theorem Statement.runAll_agrees (hlossless : out.Lossless bytes start) :
    ∀ (body : List Statement) {s : State σ} {table : TableId} {frame : Frame Arena.Binding}
    {outer gone : Frames Arena.Binding} {low high : Nat} {noted : List RuntimeError}
    {d : Dynamic.State}, Statement.AllFit s.arena table body →
    Statement.AllResolved (frame :: outer) body →
    Ascending low high ((Statement.declaredAll body).map SymbolId.index) → low ≤ high →
    Agrees out bytes start low (frame :: outer) gone s noted d →
    ∃ d', Dynamic.runAll d body = some d' ∧ (Statement.runAll out table s body).halt = none ∧
      Agrees out bytes start high ((Statement.bindingsAll body ++ frame) :: outer)
        (gone ++ Statement.closedAll body) (Statement.runAll out table s body).state
        (noted ++ (Statement.runAll out table s body).noted) d'
  | [], _, _, _, _, _, _, _, _, d, _, _, _, hle, h =>
    ⟨d, rfl, rfl, by
      simpa [runAll, closedAll, bindingsAll, Effect.noted, Halt.errors] using h.mono hle⟩
  | statement :: rest, s, table, frame, outer, gone, _, _, noted, d, ⟨hfits, hrest⟩,
      ⟨hresolved, hlater⟩, hdeclared, hle, h => by
    rw [declaredAll, List.map_append] at hdeclared
    obtain ⟨mid, hlow, hhigh, hfirst, hothers⟩ := hdeclared.exists_between hle
    have hsafe := Statement.safe_run out statement hfits h.sound
    have hquiet := hlossless.quiet (h.sink.permits hsafe.leads.halt)
    obtain ⟨hstate, hhalt, hnoted⟩ := Statement.runAll_cons_of_quiet rest hquiet
    obtain ⟨d₁, hrun₁, hagrees₁⟩ := Statement.run_agrees hlossless statement hfits hresolved hfirst
      hlow h
    rw [scope_cons] at hagrees₁ hlater
    obtain ⟨d₂, hrun₂, hnone, hagrees₂⟩ := Statement.runAll_agrees hlossless rest
      (hrest.mono hsafe.leads.shape) hlater hothers hhigh hagrees₁
    refine ⟨d₂, ?_, hhalt.trans hnone, ?_⟩
    · rw [Dynamic.runAll, hrun₁]
      exact hrun₂
    · rw [hstate, hnoted, bindingsAll, closedAll, List.append_assoc, ← List.append_assoc noted,
        ← List.append_assoc gone]
      exact hagrees₂

end

end run

/-! ## Programs -/

/-- The last frames of all blocks of a program, the outermost block at the end. -/
def Program.closed (p : Program) : Frames Arena.Binding :=
  Statement.closedAll p.root.body ++ [Statement.bindingsAll p.root.body]

namespace Executor

variable {σ : Type} {out : Sink σ} {bytes : σ → ByteArray} {sink : σ} {s : State σ}

/-- In front of its first statement a program agrees with its meaning. -/
theorem agrees_start {p : Program} (h : p.WellFormed) (out : Sink σ) (bytes : σ → ByteArray)
    (sink : σ) (position : Position) :
    Agrees out bytes sink 0 [[]] [] { arena := p.arena, sink, position } []
      Dynamic.State.start.enter where
  sound := h.initial.sound h.layered
  layout := ⟨by simp, by simp, by simp⟩
  later _ _ _ hr := h.initial hr
  frames := rfl
  gone := rfl
  sink := .idle
  output := by simp [Dynamic.State.start, Dynamic.State.enter]
  errors := rfl

/-- Statements that come to their end leave the flush to the root. -/
theorem runRoot_of_halt_none {root : Block} {t : Table} (hlossless : out.Lossless bytes sink)
    (ht : s.arena.table root.table = .ok t)
    (hsink : out.Accepts sink (Statement.runAll out root.table s root.body).state.sink)
    (hnone : (Statement.runAll out root.table s root.body).halt = none) :
    (runRoot out s root).halt = none ∧
      (runRoot out s root).errors = (Statement.runAll out root.table s root.body).errors ∧
      (runRoot out s root).state.arena = (Statement.runAll out root.table s root.body).state.arena ∧
      bytes (runRoot out s root).state.sink =
        bytes (Statement.runAll out root.table s root.body).state.sink := by
  obtain ⟨hanswer, hbytes⟩ := hlossless.flush hsink
  simp only [runRoot, Statement.inside, Arena.contains_of_table ht, if_true, hnone, State.flush]
  simp [hanswer, hbytes]

theorem execute_of_halt_none {x : Executor} {p : Program}
    (h : (runRoot out { arena := p.arena, sink, position := x.position } p.root).halt = none) :
    (x.execute out p sink).fault = none ∧
      (x.execute out p sink).executor.errors = x.errors ++
        (runRoot out { arena := p.arena, sink, position := x.position } p.root).errors ∧
      (x.execute out p sink).program.arena =
        (runRoot out { arena := p.arena, sink, position := x.position } p.root).state.arena ∧
      (x.execute out p sink).sink =
        (runRoot out { arena := p.arena, sink, position := x.position } p.root).state.sink := by
  simp [execute, h]

/-- A well-formed program whose handles are those of its names does what the names
mean. -/
theorem execute_of_resolved {p : Program} {high : Nat} (h : p.WellFormed)
    (hresolved : Statement.AllResolved [[]] p.root.body)
    (hdeclared : Ascending 0 high ((Statement.declaredAll p.root.body).map SymbolId.index))
    (hlossless : out.Lossless bytes sink) :
    ∃ final, Dynamic.runProgram p = some final ∧ (fresh.execute out p sink).fault = none ∧
      bytes (fresh.execute out p sink).sink = bytes sink ++ final.output ∧
      (fresh.execute out p sink).executor.errors = final.errors ∧
      p.closed.map (fresh.execute out p sink).program.arena.value? =
        Frames.map some final.closed := by
  obtain ⟨t, ht, -⟩ := h.outermost
  let begun : State σ := { arena := p.arena, sink, position := fresh.position }
  have hbody : Statement.AllFit begun.arena p.root.table p.root.body := h.body
  obtain ⟨d, hrun, hnone, hagrees⟩ := Statement.runAll_agrees hlossless p.root.body hbody hresolved
    hdeclared (Nat.zero_le high) (agrees_start h out bytes sink fresh.position)
  obtain ⟨final, hleave, hfinal⟩ := hagrees.leave
  obtain ⟨hhalt, herrors, harena, hbytes⟩ := runRoot_of_halt_none hlossless ht hagrees.sink hnone
  obtain ⟨hfault, hexecuted, hprogram, hsink⟩ := execute_of_halt_none hhalt
  refine ⟨final, ?_, hfault, ?_, ?_, ?_⟩
  · rw [Dynamic.runProgram, hrun]
    exact hleave
  · rw [hsink, hbytes]
    exact hfinal.output
  · rw [hexecuted, herrors, hfinal.errors, Effect.noted, hnone]
    simp [fresh, Halt.errors]
  · rw [hprogram, harena]
    simpa [Program.closed] using hfinal.gone

/-- A program that was read without errors does what its names mean: it writes the same
bytes and has the same errors, and in the end every variable of every block holds the
value that it had last. -/
theorem execute_parse_eq_dynamic {lines : List String} (hread : (Program.parse lines).errors = [])
    (hlossless : out.Lossless bytes sink) :
    let program := (Program.parse lines).program
    let run := fresh.execute out program sink
    ∃ final, Dynamic.runProgram program = some final ∧ run.fault = none ∧
      bytes run.sink = bytes sink ++ final.output ∧ run.executor.errors = final.errors ∧
      program.closed.map run.program.arena.value? = Frames.map some final.closed := by
  obtain ⟨hprogram, herrors⟩ := Program.parse_of_errors_eq_nil hread
  rw [hprogram]
  generalize (Cursor.ofLines lines).1 = cursor at herrors ⊢
  exact execute_of_resolved (Program.wellFormed_ofTokens cursor)
    ((Program.bodyReads_ofTokens cursor).resolved herrors (.outermost _))
    (Program.grown_ofTokens cursor).declared hlossless

end Executor

/-- A first value overflows, and an inner variable of another kind hides an outer one,
which was changed before and is seen again afterwards. -/
theorem Executor.execute_parse_eq_dynamic_shadowing :
    let parsed := Program.parse
      ["var x number = 9223372036854775807", "\x7b", "var y number = x + 1", "x = 2",
        "var x string = \"a\"", "print x", "\x7d", "println x"]
    let run := fresh.execute Buffer.sink parsed.program Buffer.unlimited
    parsed.errors = [] ∧ ∃ final, Dynamic.runProgram parsed.program = some final ∧
      run.fault = none ∧ run.sink.bytes = Buffer.unlimited.bytes ++ final.output ∧
      run.executor.errors = final.errors ∧
      parsed.program.closed.map run.program.arena.value? = Frames.map some final.closed := by
  intro parsed run
  have hread : parsed.errors = [] := by decide +kernel
  exact ⟨hread, Executor.execute_parse_eq_dynamic hread Buffer.lossless_unlimited⟩

end LineScript
