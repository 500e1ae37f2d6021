import LineScript.Proofs.Safety

/-!
# How statements run

A statement is null, a block, or a leaf. What a leaf does is settled before anything is
written: from the arena alone follows either why it stops or its deed, the arena that it
leaves and the texts that it writes (`Statement.deed`). Only the writing involves the sink
(`Statement.run_leaf`). Whatever relates two runs therefore has to speak about deeds and
about writing, and about nothing else in a leaf.

A leaf that stops without a fatal error has written nothing and changed nothing. A list of
statements goes on behind it and ends behind anything worse (`Statement.runAll_of_goes`
and `Statement.runAll_of_stops`).
-/

namespace LineScript

/-! ## How a run goes on -/

/-- The errors of an effect, with the one that ended it. -/
def Halt.errors : Option Halt → List RuntimeError
  | some (.error e) => [e]
  | _ => []

/-- The error that ended an effect. -/
def Halt.error? : Option Halt → Option RuntimeError
  | some (.error e) => some e
  | _ => none

theorem Halt.errors_eq_toList (halt : Option Halt) : errors halt = (error? halt).toList := by
  cases halt with
  | none => rfl
  | some halt => cases halt <;> rfl

def Effect.noted {σ : Type} (effect : Effect σ) : List RuntimeError :=
  effect.errors ++ Halt.errors effect.halt

/-- What is told about an effect if others follow it. -/
def Effect.told {σ : Type} (effect : Effect σ) : List Event :=
  effect.log ++ (Halt.errors effect.halt).map .statementSkipped

namespace Halt

/-- Only the statement itself was given up. -/
def skips : Option Halt → Bool
  | some (.error e) => !e.isFatal
  | _ => false

/-- Nothing runs any more. -/
def stops : Option Halt → Bool
  | none => false
  | some (.error e) => e.isFatal
  | some (.fault _) => true

theorem not_skips_of_stops {halt : Option Halt} (h : stops halt = true) : skips halt = false := by
  cases halt with
  | none => rfl
  | some halt =>
    cases halt with
    | error e => simpa [skips, stops] using h
    | fault f => rfl

theorem not_fatal_of_goes {halt : Option Halt} (h : stops halt = false) :
    ∀ e ∈ errors halt, e.isFatal = false := by
  cases halt with
  | none => simp [errors]
  | some halt =>
    cases halt with
    | error e => simpa [errors, stops] using h
    | fault f => simp [errors]

theorem eq_none_of_goes {halt : Option Halt} (h : stops halt = false)
    (hskips : skips halt = false) : halt = none := by
  cases halt with
  | none => rfl
  | some halt =>
    cases halt with
    | error e =>
      simp only [stops, skips, Bool.not_eq_false'] at h hskips
      rw [h] at hskips
      cases hskips
    | fault f => cases h

end Halt

namespace Statement

variable {σ : Type} {out : Sink σ} {table inner : TableId} {s : State σ} {position : Position}
variable {statement : Statement} {rest body : List Statement}

theorem runAll_of_stops (h : Halt.stops (statement.run out table s).halt = true) :
    runAll out table s (statement :: rest) = statement.run out table s := by
  rw [runAll]
  generalize statement.run out table s = first at h ⊢
  obtain ⟨t, errors, log, halt⟩ := first
  cases halt with
  | none => cases h
  | some halt =>
    cases halt with
    | error e => exact if_pos h
    | fault f => rfl

theorem runAll_of_goes (h : Halt.stops (statement.run out table s).halt = false) :
    runAll out table s (statement :: rest) =
      let first := statement.run out table s
      let later := runAll out table first.state rest
      { later with errors := first.noted ++ later.errors, log := first.told ++ later.log } := by
  rw [runAll]
  generalize statement.run out table s = first at h ⊢
  obtain ⟨t, errors, log, halt⟩ := first
  cases halt with
  | none => simp [Effect.noted, Effect.told, Halt.errors]
  | some halt =>
    cases halt with
    | error e =>
      simp only [Halt.stops] at h
      simp [Effect.noted, Effect.told, Halt.errors, h]
    | fault f => cases h

theorem noted_runAll_of_goes (h : Halt.stops (statement.run out table s).halt = false) :
    (runAll out table s (statement :: rest)).noted =
      (statement.run out table s).noted ++
        (runAll out table (statement.run out table s).state rest).noted := by
  rw [runAll_of_goes h]
  exact List.append_assoc ..

end Statement

/-- The effect of statements, told as that of a block. -/
def Effect.enclosed {σ : Type} (position : Position) (effect : Effect σ) : Effect σ :=
  let left : List Event :=
    match effect.halt with
    | some (.fault _) => []
    | _ => [.blockLeft position]
  { effect with log := .blockEntered position :: effect.log ++ left }

namespace Statement

variable {σ : Type} {out : Sink σ} {table inner : TableId} {s : State σ} {position : Position}
variable {work : State σ → Effect σ} {body : List Statement}

theorem inside_of_contains (h : s.arena.contains table = true) :
    inside position table s work = (work s).enclosed position :=
  if_pos h

/-- A block without a table ends the run. -/
theorem inside_of_missing (h : s.arena.contains table = false) :
    inside position table s work =
      ⟨s, [], [], some (.error { position, cause := .missingBlock })⟩ :=
  if_neg (by simp [h])

theorem run_block_eq :
    (Statement.block position inner body).run out table s =
      let effect := inside position inner { s with position } fun s => runAll out inner s body
      { effect with log := .statementExecuted position :: effect.log } := by
  rw [run]

end Statement

/-! ## Leaves -/

/-- What succeeds as a whole succeeds in both parts. -/
theorem exists_of_bind {ε α β : Type} {x : Except ε α} {f : α → Except ε β} {y : β}
    (h : x >>= f = .ok y) : ∃ a, x = .ok a ∧ f a = .ok y := by
  cases x with
  | error e => cases h
  | ok a => exact ⟨a, rfl, h⟩

theorem Expr.kind_of_eval {scene : Scene} {e : Expr} {v : Value} (h : e.eval scene = .ok v) :
    v.kind = e.kind := by
  cases e with
  | number e =>
    cases he : e.eval scene <;> simp [Expr.eval, he, Bind.bind, Except.bind, pure, Except.pure] at h
    exact h ▸ rfl
  | string e =>
    cases he : e.eval scene <;> simp [Expr.eval, he, Bind.bind, Except.bind, pure, Except.pure] at h
    exact h ▸ rfl

namespace State

variable {σ : Type} {s : State σ} {table : TableId} {name : String} {target : SymbolId}
variable {compound : Bool} {e : Expr} {r : Symbol}

/-- The value that a declaration stores in a symbol. -/
def declared (s : State σ) (table : TableId) (kind : Kind) (initial : Option Expr) :
    Except Halt Value :=
  initial.elim (.ok kind.initial) fun e => e.eval (s.scene table)

theorem declare_eq (s : State σ) {kind : Kind} {initial : Option Expr} :
    s.declare table name target kind initial =
      s.declared table kind initial >>= s.store table name target := by
  cases initial <;> rfl

/-- The value that an assignment stores in a symbol. -/
def assigned (s : State σ) (table : TableId) (old : Value) (compound : Bool) (e : Expr) :
    Except Halt Value := do
  let v ← e.eval (s.scene table)
  if compound then s.combine table old v else return v

theorem assign_eq (hr : s.arena.symbol target = .ok r) :
    s.assign table name target compound e =
      s.assigned table r.value compound e >>= s.store table name target := by
  unfold assign assigned
  cases e.eval (s.scene table) with
  | error halt => rfl
  | ok v =>
    cases compound with
    | false => rfl
    | true =>
      rw [hr]
      rfl

theorem kind_of_assigned {old v : Value} (hold : old.kind = e.kind)
    (h : s.assigned table old compound e = .ok v) : v.kind = e.kind := by
  unfold assigned at h
  cases heval : e.eval (s.scene table) with
  | error halt =>
    rw [heval] at h
    cases h
  | ok w =>
    have hw := Expr.kind_of_eval heval
    rw [heval] at h
    cases compound with
    | false =>
      cases h
      exact hw
    | true =>
      change s.combine table old w = .ok v at h
      obtain ⟨sum, hsum, hkind⟩ | hover := combine_of_kind s table (hold.trans hw.symm)
      · rw [hsum] at h
        cases h
        exact hkind.trans hw
      · rw [hover] at h
        cases h

end State

/-- What a leaf sets out to do. -/
structure Deed where
  /-- The arena that it leaves. -/
  arena : Arena
  /-- What it writes, one text after the other. -/
  texts : List String

/-- What is printed, with the line end on its own. -/
def Statement.printed (newline : Bool) (text : String) : List String :=
  if newline then [text, "\n"] else [text]

namespace State

variable {σ : Type}

/-- A state for work that does not look at the sink. -/
def mute (s : State σ) : State Unit :=
  { arena := s.arena, sink := (), position := s.position }

/-- The state with the arena that the work left. -/
def takeArena (s : State σ) (t : State Unit) : State σ :=
  { s with arena := t.arena }

theorem store_eq_mute (s : State σ) (table : TableId) (name : String) (target : SymbolId)
    (value : Value) :
    s.store table name target value =
      (s.mute.store table name target value).map s.takeArena := by
  unfold store mute
  cases s.arena.isVisible table target with
  | error f => rfl
  | ok visible =>
    cases visible with
    | false => rfl
    | true =>
      cases s.arena.symbol target with
      | error f => rfl
      | ok symbol =>
        by_cases hkind : symbol.kind = value.kind
        · simp only [Scene.checked, bind, Except.bind, hkind, if_true]
          cases s.arena.update target fun symbol => { symbol with value } <;> rfl
        · simp only [Scene.checked, bind, Except.bind, hkind, if_true, if_false]
          rfl

theorem declare_eq_mute (s : State σ) (table : TableId) (name : String) (target : SymbolId)
    (kind : Kind) (initial : Option Expr) :
    s.declare table name target kind initial =
      (s.mute.declare table name target kind initial).map s.takeArena := by
  unfold declare
  cases initial with
  | none => exact store_eq_mute s table name target kind.initial
  | some e =>
    have hscene : s.mute.scene table = s.scene table := rfl
    simp only [hscene]
    cases e.eval (s.scene table) with
    | error halt => rfl
    | ok value => exact store_eq_mute s table name target value

theorem assign_eq_mute (s : State σ) (table : TableId) (name : String) (target : SymbolId)
    (compound : Bool) (e : Expr) :
    s.assign table name target compound e =
      (s.mute.assign table name target compound e).map s.takeArena := by
  have hscene : s.mute.scene table = s.scene table := rfl
  have harena : s.mute.arena = s.arena := rfl
  unfold assign
  rw [hscene]
  cases e.eval (s.scene table) with
  | error halt => rfl
  | ok value =>
    cases compound with
    | false => exact store_eq_mute s table name target value
    | true =>
      rw [harena]
      cases s.arena.symbol target with
      | error f => rfl
      | ok symbol =>
        have hcombine : s.mute.combine table symbol.value value =
            s.combine table symbol.value value := by
          cases symbol.value <;> cases value <;> rfl
        simp only [Scene.checked, bind, Except.bind, if_true, hcombine]
        cases s.combine table symbol.value value with
        | error halt => rfl
        | ok sum => exact store_eq_mute s table name target sum

/-- Writes texts one after the other, up to the first that the sink refuses. -/
def writeAll (out : Sink σ) (s : State σ) : List String → State σ × Option Halt
  | [] => (s, none)
  | text :: rest =>
    match s.write out text with
    | (t, none) => t.writeAll out rest
    | result => result

theorem writeText_eq_writeAll (s : State σ) (out : Sink σ) (text : String) (newline : Bool) :
    s.writeText out text newline = s.writeAll out (Statement.printed newline text) := by
  cases newline with
  | false =>
    simp only [writeText, Statement.printed, writeAll, Bool.false_eq_true, if_false]
    generalize s.write out text = result
    obtain ⟨t, halt⟩ := result
    cases halt <;> rfl
  | true =>
    simp only [writeText, Statement.printed, writeAll, if_true]
    generalize s.write out text = result
    obtain ⟨t, halt⟩ := result
    cases halt with
    | some halt => rfl
    | none =>
      simp only
      generalize t.write out "\n" = result
      obtain ⟨u, halt⟩ := result
      cases halt <;> rfl

section write

variable {out : Sink σ} {s : State σ}

@[simp] theorem write_arena (text : String) : (s.write out text).1.arena = s.arena := by
  unfold write
  split <;> rfl

@[simp] theorem write_position (text : String) : (s.write out text).1.position = s.position := by
  unfold write
  split <;> rfl

/-- Writing stops only with an output error at the statement. -/
theorem write_halt (text : String) :
    (s.write out text).2 = none ∨
      ∃ message, (s.write out text).2 = some (s.failure (.output message)) := by
  unfold write
  split
  case isTrue => exact .inl rfl
  case isFalse =>
    simp only
    cases (out.write s.sink text.toUTF8).1 with
    | none => exact .inl rfl
    | some message => exact .inr ⟨message, rfl⟩

theorem writeAll_cons_of_ok {text : String} (rest : List String)
    (h : (s.write out text).2 = none) :
    s.writeAll out (text :: rest) = (s.write out text).1.writeAll out rest := by
  rw [writeAll]
  generalize s.write out text = result at h ⊢
  obtain ⟨t, halt⟩ := result
  cases h
  rfl

theorem writeAll_cons_of_halt {text : String} {halt : Halt} (rest : List String)
    (h : (s.write out text).2 = some halt) :
    s.writeAll out (text :: rest) = s.write out text := by
  rw [writeAll]
  generalize s.write out text = result at h ⊢
  obtain ⟨t, refusal⟩ := result
  cases h
  rfl

/-- Writing changes nothing but the sink. -/
theorem writeAll_spec (out : Sink σ) (s : State σ) (texts : List String) :
    (s.writeAll out texts).1.arena = s.arena ∧ (s.writeAll out texts).1.position = s.position ∧
      ((s.writeAll out texts).2 = none ∨
        ∃ message, (s.writeAll out texts).2 = some (s.failure (.output message))) := by
  induction texts generalizing s with
  | nil => exact ⟨rfl, rfl, .inl rfl⟩
  | cons text rest ih =>
    obtain hnone | ⟨message, hhalt⟩ := s.write_halt text
    · rw [writeAll_cons_of_ok rest hnone]
      obtain ⟨harena, hposition, hhalt⟩ := ih (s.write out text).1
      refine ⟨harena.trans (write_arena text), hposition.trans (write_position text), ?_⟩
      simpa [failure] using hhalt
    · rw [writeAll_cons_of_halt rest hhalt]
      exact ⟨write_arena text, write_position text, .inr ⟨message, hhalt⟩⟩

/-- A flush that is not refused. -/
theorem flush_of_accepted (h : (out.flush s.sink).1 = none) :
    s.flush out = ({ s with sink := (out.flush s.sink).2 }, none) ∧
      out.Accepts s.sink (out.flush s.sink).2 := by
  unfold flush
  generalize hflush : out.flush s.sink = answer at h
  obtain ⟨refusal, sink⟩ := answer
  cases h
  exact ⟨rfl, .flush .idle hflush⟩

end write

/-- Does a deed, or stops as planned. -/
def perform (out : Sink σ) (s : State σ) : Except Halt Deed → State σ × Option Halt
  | .error halt => (s, some halt)
  | .ok deed => writeAll out { s with arena := deed.arena } deed.texts

end State

/-- A store writes nothing. -/
theorem Deed.texts_of_map {work : Except Halt (State Unit)} {d : Deed}
    (h : (work.map fun s => { arena := s.arena, texts := [] }) = .ok d) : d.texts = [] := by
  cases work with
  | error halt => cases h
  | ok s =>
    cases h
    rfl

namespace Statement

variable {σ : Type} {out : Sink σ} {table : TableId} {s : State σ} {position : Position}
variable {statement : Statement}

/-- Where a leaf begins. -/
def leaf? : Statement → Option Position
  | .declare position .. | .assign position .. | .print position .. => some position
  | .null | .block .. => none

/-- What a leaf does, as far as it follows from the arena. -/
def deed (arena : Arena) (table : TableId) : Statement → Except Halt Deed
  | .declare position name target kind initial =>
    (State.declare { arena, sink := (), position } table name target kind initial).map
      fun s => { arena := s.arena, texts := [] }
  | .assign position name target compound e =>
    (State.assign { arena, sink := (), position } table name target compound e).map
      fun s => { arena := s.arena, texts := [] }
  | .print position newline payload =>
    (payload.elim (.ok "") fun e => (e.eval { arena, table, position }).map Value.text).map
      fun text => { arena, texts := printed newline text }
  | .null | .block .. => .ok { arena, texts := [] }

/-- Printing changes no variable. -/
theorem arena_of_deed_print {arena : Arena} {newline : Bool} {payload : Option Expr} {d : Deed}
    (h : (Statement.print position newline payload).deed arena table = .ok d) :
    d.arena = arena := by
  rw [deed] at h
  generalize (payload.elim (.ok "") fun e =>
    (e.eval { arena, table, position }).map Value.text : Except Halt String) = text at h
  cases text with
  | error halt => cases h
  | ok text =>
    cases h
    rfl

/-- A leaf does its deed. -/
theorem run_leaf (h : statement.leaf? = some position) :
    statement.run out table s =
      let result := State.perform out { s with position } (statement.deed s.arena table)
      { state := result.1, errors := [], log := [.statementExecuted position],
        halt := result.2 } := by
  cases statement with
  | null => cases h
  | block => cases h
  | declare p name target kind initial =>
    cases h
    rw [run_declare, begin, State.declare_eq_mute, deed]
    simp only [State.mute]
    generalize State.declare { arena := s.arena, sink := (), position } table name target kind
      initial = work
    cases work <;> rfl
  | assign p name target compound e =>
    cases h
    rw [run_assign, begin, State.assign_eq_mute, deed]
    simp only [State.mute]
    generalize State.assign { arena := s.arena, sink := (), position } table name target compound
      e = work
    cases work <;> rfl
  | print p newline payload =>
    cases h
    rw [run, begin, deed]
    cases payload with
    | none =>
      simp only [State.print_none, State.writeText_eq_writeAll]
      rfl
    | some e =>
      have hscene : State.scene { s with position } table =
          { arena := s.arena, table, position } := rfl
      cases heval : e.eval { arena := s.arena, table, position } with
      | error halt =>
        simp only [State.print_of_halt newline (hscene ▸ heval), Option.elim_some, heval]
        rfl
      | ok value =>
        simp only [State.print_of_eval newline (hscene ▸ heval), Option.elim_some, heval,
          State.writeText_eq_writeAll]
        rfl

end Statement

/-! ## Plans that fail -/

section skip

variable {σ : Type} {out : Sink σ} {table : TableId} {s : State σ} {position : Position}
variable {statement : Statement}

/-- What was begun to be written is never skipped. -/
theorem State.perform_of_skips {plan : Except Halt Deed}
    (h : Halt.skips (s.perform out plan).2 = true) : (s.perform out plan).1 = s := by
  cases plan with
  | error halt => rfl
  | ok deed =>
    obtain ⟨-, -, hnone | ⟨message, hhalt⟩⟩ :=
      writeAll_spec out { s with arena := deed.arena } deed.texts
    · rw [perform, hnone] at h
      cases h
    · rw [perform, hhalt] at h
      cases h

/-- Of a leaf that is skipped nothing stays but its position. -/
theorem Statement.run_leaf_of_skips (hleaf : statement.leaf? = some position)
    (h : Halt.skips (statement.run out table s).halt = true) :
    (statement.run out table s).state = { s with position } := by
  rw [run_leaf hleaf] at h ⊢
  exact State.perform_of_skips h

/-- Statements in a row are never skipped as a whole. -/
theorem Statement.runAll_not_skips (body : List Statement) (s : State σ) :
    Halt.skips (runAll out table s body).halt = false := by
  induction body generalizing s with
  | nil => rfl
  | cons statement rest ih =>
    cases hstops : Halt.stops (statement.run out table s).halt with
    | false =>
      rw [runAll_of_goes hstops]
      exact ih _
    | true =>
      rw [runAll_of_stops hstops]
      exact Halt.not_skips_of_stops hstops

end skip

/-! ## Sinks that refuse nothing -/

/-- Starting from this state the sink refuses nothing, and the bytes that it shows
are those that were written. -/
structure Sink.Lossless {σ : Type} (out : Sink σ) (bytes : σ → ByteArray) (start : σ) : Prop where
  write : ∀ ⦃s⦄ (data : ByteArray), out.Accepts start s →
    (out.write s data).1 = none ∧ bytes (out.write s data).2 = bytes s ++ data
  flush : ∀ ⦃s⦄, out.Accepts start s →
    (out.flush s).1 = none ∧ bytes (out.flush s).2 = bytes s

/-- A buffer without a limit keeps everything. -/
theorem Buffer.lossless_unlimited : Buffer.sink.Lossless Buffer.bytes Buffer.unlimited := by
  have hopen : ∀ b, Buffer.sink.Accepts Buffer.unlimited b →
      b.limit = none ∧ b.flushMessage = none := by
    intro b hb
    induction hb with
    | idle => exact ⟨rfl, rfl⟩
    | write _ hwrite ih =>
      simp only [Buffer.sink, Buffer.write, ih.1, Prod.mk.injEq, true_and] at hwrite
      exact hwrite ▸ ⟨rfl, ih.2⟩
    | flush _ hflush ih =>
      simp only [Buffer.sink, Prod.mk.injEq] at hflush
      exact hflush.2 ▸ ih
  constructor
  · intro b data hb
    simp [Buffer.sink, Buffer.write, (hopen b hb).1]
  · intro b hb
    simp [Buffer.sink, (hopen b hb).2]

/-- The bytes of texts in a row. -/
def encodeAll (texts : List String) : ByteArray :=
  texts.foldr (fun text later => text.toUTF8 ++ later) ByteArray.empty

section lossless

variable {σ : Type} {out : Sink σ} {bytes : σ → ByteArray} {start : σ} {s : State σ}

theorem State.write_of_lossless (h : out.Lossless bytes start) (hs : out.Accepts start s.sink)
    (text : String) :
    ∃ sink, s.write out text = ({ s with sink }, none) ∧ out.Accepts start sink ∧
      bytes sink = bytes s.sink ++ text.toUTF8 := by
  unfold State.write
  split
  case isTrue hempty =>
    have htext : text = "" := by simpa using hempty
    exact ⟨s.sink, rfl, hs, by simp [htext]⟩
  case isFalse =>
    obtain ⟨hanswer, hbytes⟩ := h.write text.toUTF8 hs
    generalize hwrite : out.write s.sink text.toUTF8 = answer at hanswer hbytes
    obtain ⟨refusal, sink⟩ := answer
    cases hanswer
    exact ⟨sink, rfl, hs.write hwrite, hbytes⟩

theorem State.writeAll_of_lossless (h : out.Lossless bytes start)
    (hs : out.Accepts start s.sink) (texts : List String) :
    (s.writeAll out texts).2 = none ∧ out.Accepts start (s.writeAll out texts).1.sink ∧
      bytes (s.writeAll out texts).1.sink = bytes s.sink ++ encodeAll texts := by
  induction texts generalizing s with
  | nil => exact ⟨rfl, hs, by simp [State.writeAll, encodeAll]⟩
  | cons text rest ih =>
    obtain ⟨sink, hwrite, hsink, hbytes⟩ := State.write_of_lossless h hs text
    obtain ⟨hrest, haccepts, hlater⟩ := ih (s := { s with sink }) hsink
    rw [State.writeAll, hwrite]
    refine ⟨hrest, haccepts, ?_⟩
    rw [hlater, hbytes, ByteArray.append_assoc]
    rfl

end lossless

/-! ## Programs -/

/-- The state in front of the first statement. -/
def Program.start {σ : Type} (p : Program) (x : Executor) (sink : σ) : State σ :=
  { arena := p.arena, sink, position := x.position }

/-- The fault that ended a run. -/
def Halt.fault? : Option Halt → Option Fault
  | some (.fault f) => some f
  | _ => none

namespace Executor

variable {σ : Type} {out : Sink σ} {s : State σ} {root : Block}

/-- What the root block does before the sink is flushed. -/
def runStatements (out : Sink σ) (s : State σ) (root : Block) : Effect σ :=
  Statement.inside root.position root.table s fun s => Statement.runAll out root.table s root.body

theorem runRoot_of_halt {halt : Halt} (h : (runStatements out s root).halt = some halt) :
    runRoot out s root = runStatements out s root := by
  unfold runStatements at h ⊢
  simp only [runRoot, h]

theorem runRoot_of_none (h : (runStatements out s root).halt = none) :
    runRoot out s root =
      { runStatements out s root with
        state := ((runStatements out s root).state.flush out).1
        halt := ((runStatements out s root).state.flush out).2 } := by
  unfold runStatements at h ⊢
  simp only [runRoot, h]

/-- What a run leaves, said by the effect of its root. -/
theorem execute_eq (out : Sink σ) (x : Executor) (p : Program) (sink : σ) :
    let effect := runRoot out (p.start x sink) p.root
    let run := x.execute out p sink
    run.executor = ⟨effect.state.position, x.errors ++ effect.noted⟩ ∧
      run.program = { p with arena := effect.state.arena } ∧ run.sink = effect.state.sink ∧
      run.fault = Halt.fault? effect.halt := by
  unfold execute Program.start
  simp only
  generalize runRoot out { arena := p.arena, sink, position := x.position } p.root = effect
  obtain ⟨state, errors, log, halt⟩ := effect
  cases halt with
  | none => exact ⟨by simp [Effect.noted, Halt.errors], rfl, rfl, rfl⟩
  | some halt =>
    cases halt with
    | error e => exact ⟨by simp [Effect.noted, Halt.errors], rfl, rfl, rfl⟩
    | fault f => exact ⟨by simp [Effect.noted, Halt.errors], rfl, rfl, rfl⟩

end Executor

/-! ## The arena of a run -/

section arena

variable {σ : Type} {out : Sink σ} {s : State σ} {table : TableId} {position : Position}
variable {statement : Statement}

namespace Statement

/-- A leaf leaves the arena alone or does its deed to it. -/
theorem arena_run_leaf (h : statement.leaf? = some position) (s : State σ) :
    (statement.run out table s).state.arena = s.arena ∨
      ∃ d, statement.deed s.arena table = .ok d ∧
        (statement.run out table s).state.arena = d.arena := by
  rw [run_leaf h]
  cases hdeed : statement.deed s.arena table with
  | error halt => exact .inl rfl
  | ok d =>
    obtain ⟨harena, -⟩ := State.writeAll_spec out { s with position, arena := d.arena } d.texts
    exact .inr ⟨d, rfl, harena⟩

theorem arena_inside {work : State σ → Effect σ} :
    (inside position table s work).state.arena =
      if s.arena.contains table then (work s).state.arena else s.arena := by
  cases hcontains : s.arena.contains table with
  | true => rw [inside_of_contains hcontains, if_pos rfl, Effect.enclosed]
  | false => rw [inside_of_missing hcontains, if_neg Bool.false_ne_true]

theorem arena_run_block {inner : TableId} {body : List Statement} (s : State σ) :
    ((Statement.block position inner body).run out table s).state.arena =
      if s.arena.contains inner then (runAll out inner { s with position } body).state.arena
      else s.arena := by
  rw [run_block_eq]
  exact arena_inside

/-- The statements behind the first one run, or the run ends with it. -/
theorem arena_runAll_cons (rest : List Statement) (s : State σ) :
    (runAll out table s (statement :: rest)).state.arena =
        (runAll out table (statement.run out table s).state rest).state.arena ∨
      (runAll out table s (statement :: rest)).state.arena =
        (statement.run out table s).state.arena := by
  cases hstops : Halt.stops (statement.run out table s).halt with
  | false => exact .inl (by rw [runAll_of_goes hstops])
  | true => exact .inr (by rw [runAll_of_stops hstops])

end Statement

theorem Executor.arena_runRoot (s : State σ) (root : Block) :
    (runRoot out s root).state.arena =
      if s.arena.contains root.table then
        (Statement.runAll out root.table s root.body).state.arena
      else s.arena := by
  have hstatements : (runStatements out s root).state.arena = _ := Statement.arena_inside
  rw [← hstatements]
  cases hhalt : (runStatements out s root).halt with
  | none => rw [runRoot_of_none hhalt, State.flush]
  | some halt => rw [runRoot_of_halt hhalt]

end arena

end LineScript
