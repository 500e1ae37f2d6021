import LineScript.Proofs.Layout
import LineScript.Proofs.Skipping

/-!
# The order of runtime errors

A run reports an error at the statement that was begun last, which is kept in the state and
not taken from the statement that fails. To see that the two are the same, all statements
that a run begins are listed, each with the state in front of it (`Program.turns`). They come
in the order of the tree, blocks before the statements inside them, and in a tree that was
read this is the order of the text (`Program.inOrder_nodes_parse`). So the overflows of a run
are those of the statements that overflow, in the order of the text, and an output error
stands behind them (`Executor.execute_parse_inOrder`).
-/

namespace LineScript

/-! ## The nodes of a tree -/

namespace Statement

mutual

/-- Where the statement and those inside it begin, each of them before those inside it. -/
def nodes : Statement → List (Position × Statement)
  | .block position table body => (position, .block position table body) :: nodesAll body
  | statement => (statement.leaf?.map fun position => (position, statement)).toList

def nodesAll : List Statement → List (Position × Statement)
  | [] => []
  | statement :: rest => statement.nodes ++ nodesAll rest

end

@[simp] theorem nodesAll_nil : nodesAll [] = [] := by
  rw [nodesAll]

@[simp] theorem nodesAll_cons {statement : Statement} {rest : List Statement} :
    nodesAll (statement :: rest) = statement.nodes ++ nodesAll rest := by
  rw [nodesAll]

@[simp] theorem nodes_null : nodes .null = [] := by
  simp [nodes, leaf?]

@[simp] theorem nodes_block {position : Position} {table : TableId} {body : List Statement} :
    nodes (.block position table body) =
      (position, .block position table body) :: nodesAll body := by
  rw [nodes]

theorem nodes_leaf {statement : Statement} {position : Position}
    (h : statement.leaf? = some position) : statement.nodes = [(position, statement)] := by
  cases statement with
  | block => cases h
  | _ => simp [nodes, h]

end Statement

/-! ## Trees that were read -/

section reading

variable {site : Site} {a b : Arena} {first : Token} {tokens left : List Token}
variable {statement : Statement} {body : List Statement} {errors : List SyntaxError}

theorem Statement.leaf?_of_map {α : Type} {f : α → Statement} {outcome : Except SyntaxError α}
    {position : Position} (hf : ∀ tree, (f tree).leaf? = some position)
    (h : outcome.map f = .ok statement) : statement.leaf? = some position := by
  cases outcome with
  | error e => cases h
  | ok tree =>
    cases h
    exact hf tree

theorem Statement.leaf?_of_readPrint {ctx : Context} {position : Position} {newline : Bool}
    (h : (readPrint ctx position newline tokens).outcome = .ok statement) :
    statement.leaf? = some position := by
  simp only [readPrint] at h
  split at h
  · cases h
    rfl
  · split at h
    · cases h
    · cases h
    · exact leaf?_of_map (fun _ => rfl) h

/-- A leaf that is read begins where its first token stands. -/
theorem Statement.leaf?_of_read (hleaf : first.StartsLeaf)
    (h : (Statement.read site a first tokens).outcome = .ok statement) :
    statement.leaf? = some first.position := by
  rw [read_eq_readUnfinished hleaf] at h
  replace h := (StatementReading.finish_eq_ok_iff.mp ⟨h, rfl⟩).1
  unfold readUnfinished at h
  split at h
  case h_1 =>
    obtain ⟨name, type, rest, kind, rfl, hname, htype, hfree⟩ | ⟨e, he, -⟩ :=
      readDeclare_free_or_error site a first.position tokens
    · rw [readDeclare_of_free hname htype hfree] at h
      exact leaf?_of_map (fun _ => rfl) h
    · cases he.symm.trans h
  case h_2 =>
    simp only [StatementReading.plain_outcome, readAssign] at h
    split at h
    · cases h
    · split at h
      · cases h
      · exact leaf?_of_map (fun _ => rfl) h
  case h_3 => exact leaf?_of_readPrint h
  case h_4 => exact leaf?_of_readPrint h
  case h_5 => cases h

/-- The nodes of a body begin at tokens that were taken, in their order. -/
theorem BodyReads.exists_starts (h : BodyReads site a tokens body left b errors) :
    ∃ taken, tokens = taken ++ left ∧
      ((Statement.nodesAll body).map Prod.fst).Sublist (taken.map Token.position) := by
  induction h with
  | ended => exact ⟨[], rfl, by simp⟩
  | stopped => exact ⟨[], rfl, by simp⟩
  | @blank _ _ _ token _ _ _ _ _ _ ih =>
    obtain ⟨taken, rfl, hstarts⟩ := ih
    exact ⟨token :: taken, rfl, hstarts.cons _⟩
  | @closed _ _ token => exact ⟨[token], rfl, by simp⟩
  | @stray _ _ _ token _ _ _ _ _ _ _ ih =>
    obtain ⟨taken, rfl, hstarts⟩ := ih
    exact ⟨token :: taken, rfl, hstarts.cons _⟩
  | @leaf site a _ token rest _ _ _ _ hleaf hread _ ih =>
    obtain ⟨taken, htaken, hstarts⟩ := ih
    obtain ⟨own, hown⟩ := (Statement.read site a token rest).suffix
    refine ⟨token :: (own ++ taken), by rw [← hown, htaken]; simp, ?_⟩
    rw [Statement.nodesAll_cons, Statement.nodes_leaf (Statement.leaf?_of_read hleaf hread),
      List.singleton_append, List.map_cons, List.map_cons, List.map_append]
    exact (hstarts.trans (List.sublist_append_right _ _)).cons_cons _
  | @leafFailed site a _ token rest _ _ _ _ _ _ _ _ ih =>
    obtain ⟨taken, htaken, hstarts⟩ := ih
    obtain ⟨own, hown⟩ := (Recovery.resync_suffix site.nested _).trans
      (Statement.read site a token rest).suffix
    refine ⟨token :: (own ++ taken), by rw [← hown, htaken]; simp, ?_⟩
    rw [Statement.nodesAll_cons, Statement.nodes_null, List.nil_append, List.map_cons,
      List.map_append]
    exact (hstarts.trans (List.sublist_append_right _ _)).cons _
  | @leafAborted site a token rest =>
    obtain ⟨own, hown⟩ := (Recovery.skipBlock_suffix site.stop site.nested 0 _).trans
      (Statement.read site a token rest).suffix
    exact ⟨token :: own, by rw [List.cons_append, hown], by simp⟩
  | @block _ _ _ _ token _ _ _ _ _ _ _ _ _ _ ends _ ihinner ihouter =>
    obtain ⟨inner, rfl, hinner⟩ := ihinner
    obtain ⟨outer, rfl, houter⟩ := ihouter
    obtain ⟨line, rfl⟩ := ends.suffix
    refine ⟨token :: (inner ++ (line ++ outer)), by simp, ?_⟩
    rw [Statement.nodesAll_cons, Statement.nodes_block, List.cons_append, List.map_cons,
      List.map_append, List.map_cons, List.map_append, List.map_append]
    exact (hinner.append (houter.trans (List.sublist_append_right _ _))).cons_cons _
  | @blockFailed site _ _ _ token found _ closed _ _ _ _ _ _ _ _ _ ihinner ihouter =>
    obtain ⟨inner, rfl, -⟩ := ihinner
    obtain ⟨outer, houter, hstarts⟩ := ihouter
    obtain ⟨dropped, hdropped⟩ := Recovery.resync_suffix site.nested (found :: closed)
    refine ⟨token :: (inner ++ (dropped ++ outer)), ?_, ?_⟩
    · rw [← hdropped, houter]
      simp
    · rw [Statement.nodesAll_cons, Statement.nodes_null, List.nil_append, List.map_cons,
        List.map_append, List.map_append]
      exact ((hstarts.trans (List.sublist_append_right _ _)).trans
        (List.sublist_append_right _ _)).cons _

end reading

/-- The nodes of a tree that was read come in the order of the text. -/
theorem Program.inOrder_nodes_parse (lines : List String) :
    (Statement.nodesAll (parse lines).program.root.body).Pairwise fun node later =>
      node.1.Before later.1 := by
  unfold parse
  simp only
  split
  · obtain ⟨taken, htaken, hstarts⟩ :=
      (bodyReads_ofTokens (Cursor.ofLines lines).1).exists_starts
    have htokens := Cursor.inOrder_tokensFrom 1 lines
    rw [← Cursor.ahead_ofLines, htaken] at htokens
    exact List.pairwise_map.mp
      ((List.pairwise_map.mpr (List.pairwise_append.mp htokens).1).sublist hstarts)
  · simp [Program.empty]

/-! ## The turns of a run -/

def RuntimeError.isOverflow (e : RuntimeError) : Bool :=
  e.cause = .overflow

/-- A statement that is about to run. -/
structure Turn (σ : Type) where
  /-- The state in which it is begun. -/
  state : State σ
  table : TableId
  position : Position
  statement : Statement

namespace Turn

variable {σ : Type}

/-- The statement and its place. -/
def node (turn : Turn σ) : Position × Statement :=
  (turn.position, turn.statement)

/-- Whether the statement itself ends in an overflow. -/
def overflows (out : Sink σ) (turn : Turn σ) : Bool :=
  (Halt.error? (turn.statement.run out turn.table turn.state).halt).any RuntimeError.isOverflow

/-- The overflow of the statement. -/
def report (turn : Turn σ) : RuntimeError :=
  { position := turn.position, cause := .overflow }

end Turn

namespace Statement

variable {σ : Type}

mutual

/-- The statements that are begun while a statement runs, with the statement itself. -/
def turns (out : Sink σ) (table : TableId) (s : State σ) : Statement → List (Turn σ)
  | .block position inner body =>
    { state := s, table, position, statement := .block position inner body } ::
      if s.arena.contains inner then turnsAll out inner { s with position } body else []
  | statement =>
    (statement.leaf?.map fun position => { state := s, table, position, statement }).toList

def turnsAll (out : Sink σ) (table : TableId) (s : State σ) : List Statement → List (Turn σ)
  | [] => []
  | statement :: rest =>
    let first := statement.run out table s
    statement.turns out table s ++
      if Halt.stops first.halt then [] else turnsAll out table first.state rest

end

end Statement

/-- The statements that are begun when the executor runs the program. -/
def Program.turns {σ : Type} (out : Sink σ) (x : Executor) (sink : σ) (p : Program) :
    List (Turn σ) :=
  if p.arena.contains p.root.table then
    Statement.turnsAll out p.root.table (p.start x sink) p.root.body
  else []

section turns

variable {σ : Type} {out : Sink σ} {s : State σ} {table : TableId} {position : Position}
variable {statement : Statement}

namespace Statement

theorem turns_leaf (h : statement.leaf? = some position) :
    statement.turns out table s = [{ state := s, table, position, statement }] := by
  cases statement with
  | block => cases h
  | _ => simp [turns, h]

mutual

/-- The statements of a run are nodes of the tree, in their order. -/
theorem turns_sublist : ∀ (statement : Statement) (table : TableId) (s : State σ),
    ((statement.turns out table s).map Turn.node).Sublist statement.nodes
  | .null, table, s => by simp [turns, leaf?]
  | .declare .., table, s => by rw [turns_leaf rfl, nodes_leaf rfl]; exact List.Sublist.refl _
  | .assign .., table, s => by rw [turns_leaf rfl, nodes_leaf rfl]; exact List.Sublist.refl _
  | .print .., table, s => by rw [turns_leaf rfl, nodes_leaf rfl]; exact List.Sublist.refl _
  | .block position inner body, table, s => by
    rw [turns, nodes_block, List.map_cons]
    split
    · exact (turnsAll_sublist body inner _).cons_cons _
    · exact (List.nil_sublist _).cons_cons _

theorem turnsAll_sublist : ∀ (body : List Statement) (table : TableId) (s : State σ),
    ((turnsAll out table s body).map Turn.node).Sublist (nodesAll body)
  | [], table, s => by simp [turnsAll]
  | statement :: rest, table, s => by
    rw [turnsAll, nodesAll_cons, List.map_append]
    refine (turns_sublist statement table s).append ?_
    split
    · exact List.nil_sublist _
    · exact turnsAll_sublist rest table _

end

/-- A leaf of a tree that fits the arena ends well or with an error at its own place. -/
theorem halt_of_fits (out : Sink σ) (hleaf : statement.leaf? = some position)
    (hfits : statement.Fits s.arena table) (hsound : s.arena.Sound) :
    (statement.run out table s).halt = none ∨
      ∃ cause, (statement.run out table s).halt = some (.error { position, cause }) := by
  let begun : State σ := { s with position }
  cases statement with
  | null => cases hleaf
  | block => cases hleaf
  | declare p name target kind initial =>
    cases hleaf
    have hwork : (∃ t, begun.declare table name target kind initial = .ok t ∧
        begun.Leads out t none) ∨ _ := State.declare_of_fits hfits hsound
    rw [run_declare, begin]
    obtain ⟨t, ht, -⟩ | hover := hwork
    · exact .inl (congrArg (fun work => (begun.settle work).2) ht)
    · exact .inr ⟨.overflow, congrArg (fun work => (begun.settle work).2) hover⟩
  | assign p name target compound e =>
    cases hleaf
    have hwork : (∃ t, begun.assign table name target compound e = .ok t ∧
        begun.Leads out t none) ∨ _ := State.assign_of_fits hfits hsound
    rw [run_assign, begin]
    obtain ⟨t, ht, -⟩ | hover := hwork
    · exact .inl (congrArg (fun work => (begun.settle work).2) ht)
    · exact .inr ⟨.overflow, congrArg (fun work => (begun.settle work).2) hover⟩
  | print p newline payload =>
    cases hleaf
    have hwrites (text : String) : (begun.writeText out text newline).2 = none ∨
        ∃ cause, (begun.writeText out text newline).2 = some (.error { position, cause }) := by
      rw [State.writeText_eq_writeAll]
      obtain hnone | ⟨message, hhalt⟩ := (State.writeAll_spec out begun (printed newline text)).2.2
      · exact .inl hnone
      · exact .inr ⟨.output message, hhalt⟩
    rw [run, begin]
    cases payload with
    | none => exact hwrites ""
    | some e =>
      obtain ⟨value, hvalue, -⟩ | hover :=
        Expr.eval_of_scoped (begun.scene table) hsound (hfits e rfl)
      · rw [State.print_of_eval newline hvalue]
        exact hwrites value.text
      · rw [State.print_of_halt newline hover]
        exact .inr ⟨.overflow, rfl⟩

theorem position_run_leaf (hleaf : statement.leaf? = some position) :
    (statement.run out table s).state.position = position := by
  rw [run_leaf hleaf]
  cases statement.deed s.arena table with
  | error halt => rfl
  | ok deed =>
    exact (State.writeAll_spec out { s with position, arena := deed.arena } deed.texts).2.1

/-- What overflows is given up. -/
theorem not_overflows_of_skips {turn : Turn σ}
    (h : Halt.skips (turn.statement.run out turn.table turn.state).halt = false) :
    turn.overflows out = false := by
  unfold Turn.overflows
  generalize (turn.statement.run out turn.table turn.state).halt = halt at h ⊢
  cases halt with
  | none => rfl
  | some halt =>
    cases halt with
    | fault f => rfl
    | error e =>
      have hcause : e.cause ≠ .overflow := by
        intro hcause
        simp [Halt.skips, RuntimeError.isFatal, hcause] at h
      simp [Halt.error?, RuntimeError.isOverflow, hcause]

end Statement

/-- What an effect tells about the statements that were begun. -/
structure Effect.Tells (out : Sink σ) (s : State σ) (turns : List (Turn σ)) (effect : Effect σ) :
    Prop where
  overflows : effect.noted.filter RuntimeError.isOverflow =
    (turns.filter (Turn.overflows out)).map Turn.report
  leaves : ∀ turn ∈ turns, turn.overflows out = true → turn.statement.leaf? = some turn.position
  position : effect.state.position = (turns.getLast?.map Turn.position).getD s.position
  fatal : ∀ e ∈ Halt.error? effect.halt, e.isFatal = true → e.position = effect.state.position

theorem Statement.tells_leaf (hleaf : statement.leaf? = some position)
    (hfits : statement.Fits s.arena table) (hsound : s.arena.Sound) :
    (statement.run out table s).Tells out s (statement.turns out table s) := by
  have hplace : (statement.run out table s).state.position = position := position_run_leaf hleaf
  have herrors : (statement.run out table s).errors = [] := by rw [run_leaf hleaf]
  rw [turns_leaf hleaf]
  refine ⟨?_, fun turn hturn _ => ?_, hplace, ?_⟩
  · rw [Effect.noted, herrors, List.nil_append]
    obtain hnone | ⟨cause, hhalt⟩ := halt_of_fits out hleaf hfits hsound
    · simp [Turn.overflows, hnone, Halt.errors, Halt.error?]
    · by_cases hcause : cause = .overflow
      · simp [Turn.overflows, hhalt, Halt.errors, Halt.error?, RuntimeError.isOverflow, hcause,
          Turn.report]
      · simp [Turn.overflows, hhalt, Halt.errors, Halt.error?, RuntimeError.isOverflow, hcause]
  · rw [List.mem_singleton.mp hturn]
    exact hleaf
  · intro e he _
    obtain hnone | ⟨cause, hhalt⟩ := halt_of_fits out hleaf hfits hsound
    · rw [hnone] at he
      cases he
    · rw [hhalt] at he
      cases he
      exact hplace.symm

mutual

theorem Statement.tells_run (out : Sink σ) : ∀ (statement : Statement) {s : State σ}
    {table : TableId}, statement.Fits s.arena table → s.arena.Sound →
    (statement.run out table s).Tells out s (statement.turns out table s)
  | .null, s, table, _, _ => by
    have hturns : Statement.null.turns out table s = [] := by simp [turns, leaf?]
    rw [hturns, run]
    exact ⟨rfl, by simp, rfl, by simp [Halt.error?]⟩
  | .declare .., _, _, h, hsound => Statement.tells_leaf rfl h hsound
  | .assign .., _, _, h, hsound => Statement.tells_leaf rfl h hsound
  | .print .., _, _, h, hsound => Statement.tells_leaf rfl h hsound
  | .block position inner body, s, table, ⟨⟨t, ht, _⟩, hbody⟩, hsound => by
    let begun : State σ := { s with position }
    have hall : (runAll out inner begun body).Tells out begun (turnsAll out inner begun body) :=
      Statement.tells_runAll out body hbody hsound
    have hcontains : s.arena.contains inner = true := Arena.contains_of_table ht
    let turn : Turn σ := ⟨s, table, position, .block position inner body⟩
    have hrun : turn.statement.run out table s =
        { (runAll out inner begun body).enclosed position with
          log := .statementExecuted position ::
            ((runAll out inner begun body).enclosed position).log } := by
      rw [run_block_eq, inside_of_contains (s := begun) hcontains]
    have hnever : turn.overflows out = false := by
      apply not_overflows_of_skips
      rw [hrun]
      exact runAll_not_skips body begun
    rw [turns, if_pos hcontains]
    change Effect.Tells out s (turn :: turnsAll out inner begun body)
      (turn.statement.run out table s)
    rw [hrun]
    refine ⟨?_, ?_, ?_, hall.fatal⟩
    · rw [List.filter_cons_of_neg (by simp [hnever])]
      exact hall.overflows
    · intro other hother hover
      obtain rfl | hother := List.mem_cons.mp hother
      · rw [hnever] at hover
        cases hover
      · exact hall.leaves other hother hover
    · rw [List.getLast?_cons]
      refine hall.position.trans ?_
      cases (turnsAll out inner begun body).getLast? <;> rfl

theorem Statement.tells_runAll (out : Sink σ) : ∀ (body : List Statement) {s : State σ}
    {table : TableId}, AllFit s.arena table body → s.arena.Sound →
    (runAll out table s body).Tells out s (turnsAll out table s body)
  | [], s, table, _, _ => by
    rw [runAll, turnsAll]
    exact ⟨rfl, by simp, rfl, by simp [Halt.error?]⟩
  | statement :: rest, s, table, ⟨hfits, hrest⟩, hsound => by
    have hfirst : (statement.run out table s).Tells out s _ :=
      Statement.tells_run out statement hfits hsound
    have hsafe := Statement.safe_run out statement hfits hsound
    rw [turnsAll]
    cases hstops : Halt.stops (statement.run out table s).halt with
    | true =>
      rw [runAll_of_stops hstops, if_pos rfl, List.append_nil]
      exact hfirst
    | false =>
      have hlater : (runAll out table (statement.run out table s).state rest).Tells out _ _ :=
        Statement.tells_runAll out rest (hrest.mono hsafe.leads.shape) hsafe.leads.sound
      rw [if_neg Bool.false_ne_true]
      refine ⟨?_, ?_, ?_, ?_⟩
      · rw [noted_runAll_of_goes hstops, List.filter_append, List.filter_append, List.map_append,
          hfirst.overflows, hlater.overflows]
      · intro turn hturn
        exact (List.mem_append.mp hturn).elim (hfirst.leaves turn) (hlater.leaves turn)
      · rw [runAll_of_goes hstops, List.getLast?_append]
        refine hlater.position.trans ?_
        rw [hfirst.position]
        cases (turnsAll out table (statement.run out table s).state rest).getLast? <;> rfl
      · rw [runAll_of_goes hstops]
        exact hlater.fatal

end

end turns

/-! ## Programs -/

namespace Executor

variable {σ : Type} {out : Sink σ} {x : Executor} {p : Program} {sink : σ}

theorem tells_runStatements (h : p.Sound) (out : Sink σ) (x : Executor) (sink : σ) :
    (runStatements out (p.start x sink) p.root).Tells out (p.start x sink)
      (p.turns out x sink) := by
  obtain ⟨t, ht⟩ := h.root
  have hcontains : p.arena.contains p.root.table = true := Arena.contains_of_table ht
  have hall := Statement.tells_runAll out p.root.body (s := p.start x sink) h.body h.arena
  rw [runStatements, Statement.inside_of_contains (s := p.start x sink) hcontains, Program.turns,
    if_pos hcontains]
  exact ⟨hall.overflows, hall.leaves, hall.position, hall.fatal⟩

/-- A flush begins no statement, and it is reported at the last one. -/
theorem tells_runRoot (h : p.Sound) (out : Sink σ) (x : Executor) (sink : σ) :
    (runRoot out (p.start x sink) p.root).Tells out (p.start x sink) (p.turns out x sink) := by
  have htells := tells_runStatements h out x sink
  cases hend : (runStatements out (p.start x sink) p.root).halt with
  | some halt => rwa [runRoot_of_halt hend]
  | none =>
    rw [runRoot_of_none hend]
    generalize runStatements out (p.start x sink) p.root = effect at htells hend
    obtain ⟨-, ⟨hnone, -⟩ | ⟨message, hrefused, -⟩⟩ :=
      flush_of_alike out (s := effect.state) ⟨rfl, rfl⟩
    · refine ⟨?_, htells.leaves, htells.position, ?_⟩
      · simpa [Effect.noted, hend, hnone] using htells.overflows
      · simp [hnone, Halt.error?]
    · refine ⟨?_, htells.leaves, htells.position, ?_⟩
      · simpa [Effect.noted, hend, hrefused, Halt.errors, State.failure,
          RuntimeError.isOverflow] using htells.overflows
      · intro e he _
        rw [hrefused] at he
        cases he
        rfl

/-- Up to the error that ends a run, all errors are overflows of statements. -/
theorem errors_runRoot (h : p.Sound) (out : Sink σ) (x : Executor) (sink : σ) :
    let effect := runRoot out (p.start x sink) p.root
    effect.errors = ((p.turns out x sink).filter (Turn.overflows out)).map Turn.report ∧
      ∀ e ∈ Halt.error? effect.halt, (∃ message, e.cause = .output message) ∧
        e.position = effect.state.position := by
  intro effect
  obtain ⟨t, ht⟩ := h.root
  have hsafe : effect.Safe out (p.start x sink) := safe_runRoot ht h.body h.arena
  have htells : effect.Tells out (p.start x sink) (p.turns out x sink) := tells_runRoot h out x sink
  have hfatal : ∀ e ∈ Halt.error? effect.halt, e.isFatal = true :=
    (runRoot_cleared out x p sink).1.fatal
  have hended : ∀ e ∈ Halt.error? effect.halt, ∃ message, e.cause = .output message := by
    intro e he
    have hpermits := hsafe.leads.halt
    cases hhalt : effect.halt with
    | none =>
      rw [hhalt] at he
      cases he
    | some halt =>
      cases halt with
      | fault f =>
        rw [hhalt] at he
        cases he
      | error e' =>
        have hfatal := hfatal e he
        rw [hhalt] at he hpermits
        cases he
        obtain ⟨hcause, -⟩ | ⟨message, hcause, -⟩ := hpermits
        · simp [RuntimeError.isFatal, hcause] at hfatal
        · exact ⟨message, hcause⟩
  refine ⟨?_, fun e he => ⟨hended e he, htells.fatal e he (hfatal e he)⟩⟩
  have hnoted : (effect.errors ++ (Halt.error? effect.halt).toList).filter
      RuntimeError.isOverflow = effect.errors := by
    rw [List.filter_append, List.filter_eq_self.mpr, List.filter_eq_nil_iff.mpr, List.append_nil]
    · intro e he
      obtain ⟨message, hcause⟩ := hended e (Option.mem_toList.mp he)
      simp [RuntimeError.isOverflow, hcause]
    · intro e he
      simp [RuntimeError.isOverflow, hsafe.errors e he]
  rw [← htells.overflows, Effect.noted, Halt.errors_eq_toList, hnoted]

end Executor

/-- The last of things that follow each other is before none of them. -/
theorem Position.not_before_of_getLast? {α : Type} {place : α → Position} {items : List α}
    {last item : α} (h : items.Pairwise fun item later => (place item).Before (place later))
    (hlast : items.getLast? = some last) (hitem : item ∈ items) :
    ¬ (place last).Before (place item) := by
  obtain ⟨front, rfl⟩ := List.getLast?_eq_some_iff.mp hlast
  obtain hitem | hitem := List.mem_append.mp hitem
  · have hbefore := (List.pairwise_append.mp h).2.2 item hitem last List.mem_cons_self
    simp only [Position.Before] at hbefore ⊢
    omega
  · rw [List.mem_singleton.mp hitem]
    simp only [Position.Before]
    omega

/-- A run of a program that was read reports the overflows of the leaves that end in one, each
at the place of its leaf. These leaves come in the order of the text, and they are different
nodes of the tree. Behind the overflows there may be one output error, whose place is not
before any of them. -/
theorem Executor.execute_parse_inOrder {σ : Type} (lines : List String) (out : Sink σ) (sink : σ) :
    let p := (Program.parse lines).program
    let failed := (p.turns out fresh sink).filter (Turn.overflows out)
    ∃ ended : Option RuntimeError,
      (fresh.execute out p sink).executor.errors =
        failed.map (fun turn => { position := turn.position, cause := .overflow }) ++
          ended.toList ∧
      failed.Pairwise (fun turn later => turn.position.Before later.position) ∧
      (∀ turn ∈ failed, turn.statement.leaf? = some turn.position) ∧
      (failed.map Turn.node).Sublist (Statement.nodesAll p.root.body) ∧
      ∀ e ∈ ended, (∃ message, e.cause = .output message) ∧
        ∀ turn ∈ failed, ¬ e.position.Before turn.position := by
  intro p failed
  have hsound : p.Sound := Program.sound_parse lines
  let effect := runRoot out (p.start fresh sink) p.root
  have htells : effect.Tells out (p.start fresh sink) (p.turns out fresh sink) :=
    tells_runRoot hsound out fresh sink
  obtain ⟨herrors, hended⟩ := errors_runRoot hsound out fresh sink
  have hnodes : ((p.turns out fresh sink).map Turn.node).Sublist
      (Statement.nodesAll p.root.body) := by
    unfold Program.turns
    split
    · exact Statement.turnsAll_sublist p.root.body p.root.table _
    · exact List.nil_sublist _
  have horder : (p.turns out fresh sink).Pairwise fun turn later =>
      turn.position.Before later.position := by
    have hplaces := (Program.inOrder_nodes_parse lines).sublist hnodes
    rwa [List.pairwise_map] at hplaces
  have hfailed : failed.Sublist (p.turns out fresh sink) := List.filter_sublist
  refine ⟨Halt.error? effect.halt, ?_, horder.sublist hfailed, ?_,
    (hfailed.map Turn.node).trans hnodes, ?_⟩
  · rw [(execute_eq out fresh p sink).1, Effect.noted, herrors, Halt.errors_eq_toList]
    rfl
  · intro turn hturn
    obtain ⟨hmem, hover⟩ := List.mem_filter.mp hturn
    exact htells.leaves turn hmem hover
  · intro e he
    obtain ⟨hcause, hposition⟩ := hended e he
    refine ⟨hcause, fun turn hturn => ?_⟩
    have hmem := hfailed.subset hturn
    cases hlast : (p.turns out fresh sink).getLast? with
    | none =>
      rw [List.getLast?_eq_none_iff.mp hlast] at hmem
      cases hmem
    | some last =>
      have hplace : effect.state.position = last.position := by rw [htells.position, hlast]; rfl
      rw [hposition, hplace]
      exact Position.not_before_of_getLast? horder hlast hmem

end LineScript
