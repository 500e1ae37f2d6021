import LineScript.Proofs.LexicalScoping
import LineScript.Proofs.Relocation

/-!
# Programs inside a block

Lines that are read without an error are read as well with braces around them, each on a line
of its own. The program is the same, but that it stands one line further down inside a
block (`Program.parse_braced`), and running it does the same (`Executor.execute_braced`).
-/

namespace LineScript

/-- The program as the only statement of another one. -/
def Program.enclosed (p : Program) : Program :=
  { root :=
      { position := .start
        table := ⟨0⟩
        body := [.block p.root.position p.root.table.next (Statement.enclosedAll p.root.body)] }
    arena := p.arena.enclosed }

/-- The lines between braces on lines of their own. -/
def Text.braced (lines : List String) : List String :=
  "\x7b" :: lines ++ ["\x7d"]

/-! ## Reading -/

section reading

variable {lines : List String} {stop : Position} {brace newline : Token} {w : Walk}

/-- The tokens of a line with one brace. -/
theorem Cursor.exists_lineTokens_brace (line : Nat) :
    (∃ newline : Token, newline.kind = .newline ∧
      lineTokens line "\x7b" = [⟨.leftBrace, "\x7b", ⟨line, 1⟩⟩, newline]) ∧
    ∃ newline : Token, newline.kind = .newline ∧
      lineTokens line "\x7d" = [⟨.rightBrace, "\x7d", ⟨line, 1⟩⟩, newline] := by
  have hopen : lineTokens 1 "\x7b" =
      [⟨.leftBrace, "\x7b", ⟨1, 1⟩⟩, newlineOf 1 "\x7b"] := by decide +kernel
  have hclose : lineTokens 1 "\x7d" =
      [⟨.rightBrace, "\x7d", ⟨1, 1⟩⟩, newlineOf 1 "\x7d"] := by decide +kernel
  have hopen' := lineTokens_renumber (fun _ => line) 1 "\x7b"
  have hclose' := lineTokens_renumber (fun _ => line) 1 "\x7d"
  rw [hopen] at hopen'
  rw [hclose] at hclose'
  exact ⟨⟨_, rfl, hopen'⟩, _, rfl, hclose'⟩

theorem Cursor.errors_ofLines_braced (h : (ofLines lines).2 = []) :
    (ofLines (Text.braced lines)).2 = [] := by
  have hopen : lineError? 1 "\x7b" = none := by decide +kernel
  have hclose : lineError? 1 "\x7d" = none := by decide +kernel
  rw [errors_ofLines, errorsFrom_eq_nil_iff] at h ⊢
  intro text htext line
  rw [Text.braced, List.mem_append, List.mem_cons, List.mem_singleton] at htext
  obtain (rfl | htext) | rfl := htext
  · exact lineError?_eq_none_of_eq_none hopen line
  · exact h text htext line
  · exact lineError?_eq_none_of_eq_none hclose line

/-- A brace at the front of the input opens a block around everything. -/
theorem Walk.run_opened (hbrace : brace.kind = .leftBrace) (hposition : brace.position = .start)
    (hnewline : newline.kind = .newline) : start.Passes [brace, newline] start.enclosed := by
  intro stop later
  have hopens : start.step stop (brace :: newline :: later) = some (start.enter brace, _) :=
    step_of_leftBrace rfl hbrace
  have hpasses : start.enclosed.step stop (newline :: later) = some (start.enclosed, later) :=
    step_of_blank rfl (.inl hnewline)
  rw [enter_start hposition] at hopens
  rw [List.cons_append, List.singleton_append, run_of_step hopens, run_of_step hpasses]

/-- A walk that was at the top level closes the block around it. -/
theorem Walk.run_closed (hmode : w.mode = .reading) (houter : w.outer = [])
    (hbrace : brace.kind = .rightBrace) (hnewline : newline.kind = .newline) (stop : Position) :
    w.enclosed.run stop [brace, newline] =
      { mode := .reading
        block :=
          { position := .start
            table := ⟨0⟩
            body := [.block w.block.position w.block.table.next
              (Sketch.enclosedAll w.block.body)] }
        outer := []
        arena := w.arena.enclosed
        errors := w.errors } := by
  have hmode' : w.enclosed.mode = .reading := hmode
  have houter' : w.enclosed.outer = [{ position := .start, table := ⟨0⟩, body := [] }] := by
    simp [enclosed, houter]
  have hstep : w.enclosed.step stop [brace, newline] = some (w.enclosed.leave [newline]) :=
    step_of_closed hmode' hbrace (nested_enclosed w)
  rw [leave_of_ends houter' (.line hnewline)] at hstep
  rw [run_of_step hstep]
  exact run_nil_of_root rfl

/-- Lines that are read without an error are read inside a block, one line further down. -/
theorem Program.parse_braced (h : (parse lines).errors = []) :
    (parse (Text.braced lines)).errors = [] ∧
      (parse (Text.braced lines)).program = ((parse lines).program.renumber (· + 1)).enclosed := by
  have hscanned := errors_ofLines_of_parse h
  obtain ⟨hprogram, hnone⟩ := parse_of_errors_eq_nil h
  obtain ⟨hprogram', herrors'⟩ := parse_of_scanned (Cursor.errors_ofLines_braced hscanned)
  -- The same lines without braces, one line further down.
  let stop := (Cursor.ofLines lines).1.closing.position.renumber (· + 1)
  let moved : Cursor := ⟨Cursor.tokensFrom 2 lines, .endAt stop, 0⟩
  have hahead : moved.ahead = (Cursor.ofLines lines).1.ahead.map (Token.renumber (· + 1)) :=
    Cursor.tokensFrom_renumber fun k _ => by omega
  obtain ⟨hrenumbered, hmapped⟩ := ofTokens_renumber (· + 1) hahead rfl
  rw [hnone, List.map_nil] at hmapped
  obtain ⟨hwalk, herrors⟩ := Walk.run_start moved
  obtain ⟨w, hpasses, hsince, hbraced⟩ :=
    Walk.exists_passes_enclosed (Cursor.wholeLines_tokensFrom 2 lines)
  have hrun : Walk.start.run stop moved.ahead = w.run stop [] := by
    have hrun := hpasses stop []
    rwa [List.append_nil] at hrun
  have hclosing : moved.closing.position = stop := rfl
  rw [hclosing, hrun] at hwalk herrors
  obtain ⟨hclean, houter, hstays⟩ := Walk.run_nil_of_noErrors (herrors.symm.trans hmapped)
  rw [hstays, hrenumbered, ← hprogram] at hwalk
  have hmode : w.mode = .reading := hsince.awake hclean rfl
  obtain ⟨newline, hnewline, hopen⟩ := (Cursor.exists_lineTokens_brace 1).1
  obtain ⟨newline', hnewline', hclose⟩ :=
    (Cursor.exists_lineTokens_brace (2 + lines.length)).2
  have hlines : Cursor.tokensFrom 1 (Text.braced lines) =
      Cursor.lineTokens 1 "\x7b" ++ (Cursor.tokensFrom 2 lines ++
        Cursor.lineTokens (2 + lines.length) "\x7d") := by
    simp [Text.braced, Cursor.tokensFrom_append, Cursor.tokensFrom_nil]
  rw [hlines, hopen, hclose, Walk.run_opened rfl rfl hnewline, hbraced hclean,
    Walk.run_closed hmode houter rfl hnewline'] at hprogram' herrors'
  refine ⟨?_, ?_⟩
  · rw [herrors', hclean]
    rfl
  · rw [hprogram', hwalk]
    simp [enclosed, OpenBlock.fill, Sketch.fillAll_enclosed]

end reading

/-! ## Running -/

section running

variable {σ : Type} {out : Sink σ} {bytes : σ → ByteArray} {sink : σ} {s : State σ}
variable {table inner : TableId} {position : Position} {body : List Statement} {p : Program}
variable {lines : List String}

/-- A block that stands alone does what its statements do. -/
theorem Statement.runAll_singleton_block {t : Table} (ht : s.arena.table inner = .ok t)
    (hnone : (runAll out inner { s with position } body).halt = none) :
    let effect := runAll out inner { s with position } body
    let whole := runAll out table s [.block position inner body]
    whole.state = effect.state ∧ whole.errors = effect.errors ∧ whole.halt = none := by
  intro effect whole
  have hthere : (State.arena { s with position }).contains inner = true :=
    Arena.contains_of_table ht
  have hrun : (block position inner body).run out table s =
      { effect.enclosed position with
        log := .statementExecuted position :: (effect.enclosed position).log } := by
    rw [run_block_eq, inside_of_contains hthere]
  have hhalt : ((block position inner body).run out table s).halt = none := by
    rw [hrun]
    exact hnone
  have hwhole : whole = _ := runAll_of_goes (congrArg Halt.stops hhalt)
  simp only [hwhole, runAll, Effect.noted, hhalt, Halt.errors, List.append_nil, and_true]
  rw [hrun]
  exact ⟨rfl, rfl⟩

namespace Executor

/-- If the sink refuses nothing, the statements of a program come to their end. -/
theorem runAll_of_lossless (hp : p.Sound) (hlossless : out.Lossless bytes sink) (x : Executor) :
    let effect := Statement.runAll out p.root.table (p.start x sink) p.root.body
    effect.halt = none ∧ out.Accepts sink effect.state.sink := by
  intro effect
  have hpermits : out.Permits sink effect.state.sink effect.halt :=
    (Statement.safe_runAll out p.root.body hp.body hp.arena).leads.halt
  have hquiet : Halt.Quiet effect.halt := hlossless.quiet hpermits
  have hskips : Halt.skips effect.halt = false := Statement.runAll_not_skips p.root.body _
  generalize effect = effect at hpermits hquiet hskips ⊢
  obtain ⟨t, errors, log, halt⟩ := effect
  cases halt with
  | none => exact ⟨rfl, hpermits⟩
  | some halt =>
    cases halt with
    | fault f => exact hquiet.elim
    | error e =>
      have hcause : e.cause = .overflow := hquiet
      simp [Halt.skips, RuntimeError.isFatal, hcause] at hskips

/-- What a run leaves whose statements come to their end. -/
theorem execute_of_runAll (p : Program) (x : Executor) {t : Table}
    (hlossless : out.Lossless bytes sink) (ht : p.arena.table p.root.table = .ok t)
    (hsink : out.Accepts sink
      (Statement.runAll out p.root.table (p.start x sink) p.root.body).state.sink)
    (hnone : (Statement.runAll out p.root.table (p.start x sink) p.root.body).halt = none) :
    let effect := Statement.runAll out p.root.table (p.start x sink) p.root.body
    let run := x.execute out p sink
    bytes run.sink = bytes effect.state.sink ∧ run.executor.errors = x.errors ++ effect.errors ∧
      run.program.arena = effect.state.arena := by
  intro effect run
  have htable : (p.start x sink).arena.table p.root.table = .ok t := ht
  obtain ⟨hhalt, herrors, harena, hbytes⟩ := runRoot_of_halt_none hlossless htable hsink hnone
  obtain ⟨-, hnoted, hleft, hwritten⟩ := execute_of_halt_none hhalt
  exact ⟨(congrArg bytes hwritten).trans hbytes, hnoted.trans (congrArg (x.errors ++ ·) herrors),
    hleft.trans harena⟩

/-- The statements of a program run alike one level further down. -/
theorem relocated_enclosed (hp : p.Sound) (hlossless : out.Lossless bytes sink) (g : Nat → Nat)
    (x : Executor) :
    let q := (p.renumber g).enclosed
    (Statement.runAll out p.root.table (p.start x sink) p.root.body).Relocated g
      (Statement.runAll out q.root.table (q.start x sink) q.root.body) := by
  intro q
  let s := q.start x sink
  let begun : State σ := { s with position := p.root.position }
  have hbegun : (p.start x sink).Relocated begun := ⟨rfl, rfl⟩
  have hall := Statement.relocated_runAll g out p.root.body hp.body hp.arena hbegun
  obtain ⟨t, ht⟩ := hp.root
  have ht' : s.arena.table p.root.table.next = .ok t.enclosed := Arena.table_enclosed ht
  have hnone := (runAll_of_lossless hp hlossless x).1
  have hnone' := hall.halt.trans (congrArg (Option.map (Halt.renumber g)) hnone)
  obtain ⟨hstate, herrors, hhalt⟩ := Statement.runAll_singleton_block ht' hnone'
  refine ⟨⟨?_, ?_⟩, herrors.trans hall.errors, ?_⟩
  · exact (congrArg State.arena hstate).trans hall.state.arena
  · exact (congrArg State.sink hstate).trans hall.state.sink
  · rw [hnone]
    exact hhalt

/-- A program one level further down writes the same, reports the same with new numbers and
leaves the same arena inside. -/
theorem execute_enclosed (hp : p.Sound) (hlossless : out.Lossless bytes sink) (g : Nat → Nat) :
    let run := fresh.execute out p sink
    let run' := fresh.execute out (p.renumber g).enclosed sink
    bytes run'.sink = bytes run.sink ∧
      run'.executor.errors = run.executor.errors.map (RuntimeError.renumber g) ∧
      run'.program.arena = run.program.arena.enclosed := by
  intro run run'
  obtain ⟨t, ht⟩ := hp.root
  obtain ⟨hnone, haccepts⟩ := runAll_of_lossless hp hlossless fresh
  have hmoved := relocated_enclosed hp hlossless g fresh
  have haccepts' := hmoved.state.sink.symm ▸ haccepts
  have hnone' := hmoved.halt.trans (congrArg (Option.map (Halt.renumber g)) hnone)
  obtain ⟨hbytes, hnoted, harena⟩ := execute_of_runAll p fresh hlossless ht haccepts hnone
  obtain ⟨hbytes', hnoted', harena'⟩ := execute_of_runAll (p.renumber g).enclosed fresh hlossless
    Arena.table_enclosed_zero haccepts' hnone'
  refine ⟨?_, ?_, ?_⟩
  · exact hbytes'.trans ((congrArg bytes hmoved.state.sink).trans hbytes.symm)
  · rw [hnoted, hnoted']
    exact hmoved.errors
  · rw [harena, harena']
    exact hmoved.state.arena

/-- Inside a block lines do what they do at the top level. With braces around them they are
read without an error, write the same bytes, report the same errors one line further down
and leave the same values in the same symbols. -/
theorem execute_braced (h : (Program.parse lines).errors = []) :
    (Program.parse (Text.braced lines)).errors = [] ∧
      ∀ {σ : Type} {out : Sink σ} {bytes : σ → ByteArray} {sink : σ}, out.Lossless bytes sink →
        let run := fresh.execute out (Program.parse lines).program sink
        let run' := fresh.execute out (Program.parse (Text.braced lines)).program sink
        bytes run'.sink = bytes run.sink ∧
          run'.executor.errors = run.executor.errors.map (RuntimeError.renumber (· + 1)) ∧
          run'.program.arena.symbols = run.program.arena.symbols := by
  obtain ⟨herrors, hprogram⟩ := Program.parse_braced h
  refine ⟨herrors, ?_⟩
  intro σ out bytes sink hlossless
  rw [hprogram]
  obtain ⟨hbytes, hnoted, harena⟩ :=
    execute_enclosed (Program.sound_parse lines) hlossless (· + 1)
  refine ⟨hbytes, hnoted, ?_⟩
  rw [harena]
  rfl

/-- The lines have a block of their own that hides a variable, and an overflow in it. -/
theorem execute_braced_overflow :
    let lines := ["var x number = 9223372036854775807", "\x7b", "var x number = x - 1",
      "x += 2", "println x", "\x7d", "println x"]
    let run := fresh.execute Buffer.sink (Program.parse lines).program Buffer.unlimited
    let run' := fresh.execute Buffer.sink (Program.parse (Text.braced lines)).program
      Buffer.unlimited
    (Program.parse lines).errors = [] ∧ run.executor.errors = [⟨⟨4, 1⟩, .overflow⟩] ∧
      (Program.parse (Text.braced lines)).errors = [] ∧ run'.sink.bytes = run.sink.bytes ∧
      run'.executor.errors = [⟨⟨5, 1⟩, .overflow⟩] ∧
      run'.program.arena.symbols = run.program.arena.symbols := by
  intro lines run run'
  have hread : (Program.parse lines).errors = [] := by decide +kernel
  have hoverflow : run.executor.errors = [⟨⟨4, 1⟩, .overflow⟩] := by decide +kernel
  obtain ⟨herrors, hruns⟩ := execute_braced hread
  obtain ⟨hbytes, hnoted, hsymbols⟩ := hruns Buffer.lossless_unlimited
  refine ⟨hread, hoverflow, herrors, hbytes, ?_, hsymbols⟩
  exact hnoted.trans (congrArg (List.map (RuntimeError.renumber (· + 1))) hoverflow)

end Executor

end running

end LineScript
