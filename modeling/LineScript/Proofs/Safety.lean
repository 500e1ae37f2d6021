import LineScript.Executor
import LineScript.Proofs.Storing
import LineScript.Proofs.WellFormed

/-!
# Programs that were read run safely

A program that was read from lines, with or without errors, can be run again and
again. No run reaches a handle that leads nowhere, and the only errors are
overflows and refusals of the sink. The checks of handles and kinds at run time are
therefore never needed for such a program; they only protect trees and arenas that
do not belong together.
-/

namespace LineScript

/-! ## Values -/

namespace Arena

variable {a b : Arena} {target : SymbolId} {s : Symbol} {value : Value}

/-- What evaluation relies on: parents come first, and every symbol holds a value of
its kind. -/
structure Sound (a : Arena) : Prop where
  layered : a.Layered
  typed : ∀ ⦃target s⦄, a.symbol target = .ok s → s.value.kind = s.kind

@[simp] theorem kind_initial (kind : Kind) : kind.initial.kind = kind := by
  cases kind <;> rfl

theorem Initial.sound (h : a.Initial) (hlayered : a.Layered) : a.Sound where
  layered := hlayered
  typed target s hs := by rw [h hs, kind_initial]

/-- The arena after a value was stored in a symbol. -/
def stored (a : Arena) (target : SymbolId) (value : Value) : Arena :=
  { a with symbols := a.symbols.modify target.index fun symbol => { symbol with value } }

@[simp] theorem table_stored (id : TableId) : (a.stored target value).table id = a.table id := rfl

theorem symbol_stored_self (hs : a.symbol target = .ok s) :
    (a.stored target value).symbol target = .ok { s with value } := by
  rw [symbol_eq_ok] at hs ⊢
  simp [stored, Array.getElem?_modify, hs]

theorem symbol_stored_of_ne {other : SymbolId} (h : other ≠ target) :
    (a.stored target value).symbol other = a.symbol other := by
  have hne : target.index ≠ other.index := by
    intro e
    cases target
    cases other
    exact h (by simpa using e.symm)
  simp only [symbol, stored, Array.getElem?_modify, if_neg hne]

theorem update_eq_stored (hs : a.symbol target = .ok s) :
    (a.update target fun symbol => { symbol with value }) = .ok (a.stored target value) := by
  simp [update, hs, stored, bind, Except.bind, pure, Except.pure]

theorem extends_stored (hs : a.symbol target = .ok s) : a.Extends (a.stored target value) where
  table _ t ht := ⟨t, ht, rfl, fun _ _ h => h⟩
  symbol other r hr := by
    by_cases h : other = target
    · subst h
      rw [hs] at hr
      cases hr
      exact ⟨_, symbol_stored_self hs, rfl, rfl⟩
    · exact ⟨r, (symbol_stored_of_ne h).trans hr, rfl, rfl⟩

theorem Sound.stored (h : a.Sound) (hs : a.symbol target = .ok s) (hkind : value.kind = s.kind) :
    (a.stored target value).Sound where
  layered := h.layered
  typed other r hr := by
    by_cases hne : other = target
    · subst hne
      rw [symbol_stored_self hs] at hr
      cases hr
      exact hkind
    · rw [symbol_stored_of_ne hne] at hr
      exact h.typed hr

end Arena

/-! ## Expressions -/

section eval

variable {scene : Scene} {ref : Reference} {kind : Kind}

theorem Reference.read_of_sees (h : scene.arena.Sees scene.table ref.name ref.symbol kind)
    (hlayered : scene.arena.Layered) :
    ∃ s, scene.arena.symbol ref.symbol = .ok s ∧ s.kind = kind ∧
      ref.read scene = .ok s.value := by
  have hvisible := h.isVisible hlayered
  obtain ⟨⟨s, hs, -, hkind⟩, -⟩ := h
  refine ⟨s, hs, hkind, ?_⟩
  simp [Reference.read, hvisible, hs, Scene.checked, bind, Except.bind, pure, Except.pure]

theorem Reference.readNumber_of_sees
    (h : scene.arena.Sees scene.table ref.name ref.symbol .number) (hsound : scene.arena.Sound) :
    ∃ n, ref.readNumber scene = .ok n := by
  obtain ⟨s, hs, hkind, hread⟩ := Reference.read_of_sees h hsound.layered
  have hvalue := hsound.typed hs
  cases hv : s.value with
  | number n =>
    exact ⟨n, by simp [Reference.readNumber, hread, hv, bind, Except.bind, pure, Except.pure]⟩
  | string text => simp [hv, hkind, Value.kind] at hvalue

theorem Reference.readString_of_sees
    (h : scene.arena.Sees scene.table ref.name ref.symbol .string) (hsound : scene.arena.Sound) :
    ∃ text, ref.readString scene = .ok text := by
  obtain ⟨s, hs, hkind, hread⟩ := Reference.read_of_sees h hsound.layered
  have hvalue := hsound.typed hs
  cases hv : s.value with
  | number n => simp [hv, hkind, Value.kind] at hvalue
  | string text =>
    exact ⟨text, by simp [Reference.readString, hread, hv, bind, Except.bind, pure, Except.pure]⟩

/-- The computation gives a result or an overflow. -/
def Scene.Computes {α : Type} (scene : Scene) (r : Except Halt α) : Prop :=
  (∃ x, r = .ok x) ∨ r = .error scene.overflow

namespace Scene.Computes

theorem inRange (result : Option Number) : scene.Computes (scene.inRange result) := by
  cases result with
  | none => exact .inr rfl
  | some n => exact .inl ⟨n, rfl⟩

theorem apply (scene : Scene) (a : Number) (op : Operator) (b : Number) :
    scene.Computes (scene.apply a op b) :=
  inRange _

theorem bind {α β : Type} {r : Except Halt α} {f : α → Except Halt β} (hr : scene.Computes r)
    (hf : ∀ x, scene.Computes (f x)) : scene.Computes (r >>= f) := by
  obtain ⟨x, rfl⟩ | rfl := hr
  · exact hf x
  · exact .inr rfl

end Scene.Computes

mutual

theorem NumExpr.computes_eval (hsound : scene.arena.Sound) : ∀ e : NumExpr,
    (∀ ref ∈ e.references, scene.arena.Sees scene.table ref.name ref.symbol .number) →
    scene.Computes (e.eval scene)
  | .single term, h => Term.computes_eval hsound term h
  | .chain term op rest, h => by
    have hterm := Term.computes_eval hsound term
      fun ref href => h ref (List.mem_append_left _ href)
    have hrest := NumExpr.computes_eval hsound rest
      fun ref href => h ref (List.mem_append_right _ href)
    exact hterm.bind fun a => hrest.bind fun b => .apply scene a op b

theorem Term.computes_eval (hsound : scene.arena.Sound) : ∀ e : Term,
    (∀ ref ∈ e.references, scene.arena.Sees scene.table ref.name ref.symbol .number) →
    scene.Computes (e.eval scene)
  | .single factor, h => Factor.computes_eval hsound factor h
  | .chain factor op rest, h => by
    have hfactor := Factor.computes_eval hsound factor
      fun ref href => h ref (List.mem_append_left _ href)
    have hrest := Term.computes_eval hsound rest
      fun ref href => h ref (List.mem_append_right _ href)
    exact hfactor.bind fun a => hrest.bind fun b => .apply scene a op b

theorem Factor.computes_eval (hsound : scene.arena.Sound) : ∀ e : Factor,
    (∀ ref ∈ e.references, scene.arena.Sees scene.table ref.name ref.symbol .number) →
    scene.Computes (e.eval scene)
  | .literal n, _ => .inl ⟨n, rfl⟩
  | .paren inner, h => NumExpr.computes_eval hsound inner h
  | .negate inner, h =>
    (Factor.computes_eval hsound inner h).bind fun a => .apply scene a .mul (.integer (-1))
  | .reference ref, h =>
    .inl (Reference.readNumber_of_sees (h ref (List.mem_singleton_self ref)) hsound)

end

theorem StringExpr.computes_eval (hsound : scene.arena.Sound) (e : StringExpr)
    (h : ∀ ref ∈ e.references, scene.arena.Sees scene.table ref.name ref.symbol .string) :
    scene.Computes (e.eval scene) := by
  have operand (o : StringOperand)
      (h : ∀ ref ∈ o.references, scene.arena.Sees scene.table ref.name ref.symbol .string) :
      scene.Computes (o.eval scene) := by
    cases o with
    | literal text => exact .inl ⟨text, rfl⟩
    | reference ref =>
      exact .inl (Reference.readString_of_sees (h ref (List.mem_singleton_self ref)) hsound)
  induction e with
  | single o => exact operand o h
  | chain o rest ih =>
    have hrest := ih fun ref href => h ref (List.mem_append_right _ href)
    exact (operand o fun ref href => h ref (List.mem_append_left _ href)).bind fun a =>
      hrest.bind fun b => .inl ⟨a ++ b, rfl⟩

/-- A scoped expression has a value of its kind or overflows. -/
theorem Expr.eval_of_scoped (scene : Scene) (hsound : scene.arena.Sound) {e : Expr}
    (h : e.Scoped scene.arena scene.table) :
    (∃ value, e.eval scene = .ok value ∧ value.kind = e.kind) ∨
      e.eval scene = .error scene.overflow := by
  cases e with
  | number e =>
    obtain ⟨n, hn⟩ | hn := NumExpr.computes_eval hsound e h
    · exact .inl ⟨.number n, by simp [Expr.eval, hn, bind, Except.bind, pure, Except.pure], rfl⟩
    · exact .inr (by simp [Expr.eval, hn, bind, Except.bind])
  | string e =>
    obtain ⟨text, htext⟩ | htext := StringExpr.computes_eval hsound e h
    · exact .inl ⟨.string text,
        by simp [Expr.eval, htext, bind, Except.bind, pure, Except.pure], rfl⟩
    · exact .inr (by simp [Expr.eval, htext, bind, Except.bind])

end eval

/-! ## Sinks -/

namespace Sink

variable {σ : Type} {out : Sink σ} {s t u : σ} {message : String}

/-- The sink gets from one state to another by requests that it accepts. -/
inductive Accepts (out : Sink σ) (s : σ) : σ → Prop where
  | idle : Accepts out s s
  | write {t u : σ} {data : ByteArray} (h : Accepts out s t)
      (hwrite : out.write t data = (none, u)) : Accepts out s u
  | flush {t u : σ} (h : Accepts out s t) (hflush : out.flush t = (none, u)) : Accepts out s u

/-- The sink accepts requests, refuses the next one with a message, and is left in
the state `t`. -/
def Refuses (out : Sink σ) (s t : σ) (message : String) : Prop :=
  ∃ u, out.Accepts s u ∧
    ((∃ data, out.write u data = (some message, t)) ∨ out.flush u = (some message, t))

theorem Accepts.trans (hst : out.Accepts s t) (htu : out.Accepts t u) : out.Accepts s u := by
  induction htu with
  | idle => exact hst
  | write _ hwrite ih => exact ih.write hwrite
  | flush _ hflush ih => exact ih.flush hflush

theorem Accepts.refuses (hst : out.Accepts s t) (h : out.Refuses t u message) :
    out.Refuses s u message := by
  obtain ⟨v, htv, hv⟩ := h
  exact ⟨v, hst.trans htv, hv⟩

/-- How a part of a run may end that takes the sink from one state to another: well,
with an overflow, or with an output error that the sink itself caused. -/
def Permits (out : Sink σ) (s t : σ) : Option Halt → Prop
  | none => out.Accepts s t
  | some (.error e) =>
    e.cause = .overflow ∧ out.Accepts s t ∨ ∃ message, e.cause = .output message ∧
      out.Refuses s t message
  | some (.fault _) => False

theorem Accepts.permits (hst : out.Accepts s t) {halt : Option Halt} (h : out.Permits t u halt) :
    out.Permits s u halt := by
  match halt, h with
  | none, h => exact hst.trans h
  | some (.error e), .inl ⟨hcause, h⟩ => exact .inl ⟨hcause, hst.trans h⟩
  | some (.error e), .inr ⟨message, hcause, h⟩ => exact .inr ⟨message, hcause, hst.refuses h⟩

end Sink

/-! ## Statements -/

section run

variable {σ : Type} {out : Sink σ} {s t : State σ} {table : TableId} {name : String}
variable {target : SymbolId} {value : Value} {kind : Kind} {position : Position}

/-- A part of a run is safe: the arena keeps its shape and its kinds, and the part
ends as the sink permits. -/
structure State.Leads (out : Sink σ) (s t : State σ) (halt : Option Halt) : Prop where
  shape : s.arena.Extends t.arena
  sound : t.arena.Sound
  halt : out.Permits s.sink t.sink halt

namespace State

theorem Leads.refl (h : s.arena.Sound) : s.Leads out s none where
  shape := .refl _
  sound := h
  halt := .idle

theorem Leads.overflow (h : s.arena.Sound) : s.Leads out s (some (s.scene table).overflow) where
  shape := .refl _
  sound := h
  halt := .inl ⟨rfl, .idle⟩

/-- A value of the right kind can be stored in every variable that is seen. -/
theorem store_eq_of_sees (h : s.arena.Sees table name target value.kind)
    (hsound : s.arena.Sound) :
    s.store table name target value = .ok { s with arena := s.arena.stored target value } := by
  have hvisible := h.isVisible hsound.layered
  obtain ⟨⟨symbol, hs, -, hkind⟩, -⟩ := h
  simp [store, hvisible, hs, hkind, Arena.update_eq_stored hs, Scene.checked, bind, Except.bind,
    pure, Except.pure]

theorem store_of_sees (h : s.arena.Sees table name target value.kind) (hsound : s.arena.Sound) :
    ∃ t, s.store table name target value = .ok t ∧ s.Leads out t none := by
  refine ⟨_, store_eq_of_sees h hsound, ?_⟩
  obtain ⟨⟨symbol, hs, -, hkind⟩, -⟩ := h
  exact ⟨Arena.extends_stored hs, hsound.stored hs hkind.symm, .idle⟩

/-- Work that ends in a store or in an overflow is safe. -/
theorem leads_settle {work : Except Halt (State σ)} (hsound : s.arena.Sound)
    (h : (∃ t, work = .ok t ∧ s.Leads out t none) ∨ work = .error (s.scene table).overflow) :
    s.Leads out (s.settle work).1 (s.settle work).2 := by
  obtain ⟨t, rfl, ht⟩ | rfl := h
  · exact ht
  · exact .overflow hsound

theorem declare_of_fits {initial : Option Expr}
    (h : (Statement.declare position name target kind initial).Fits s.arena table)
    (hsound : s.arena.Sound) :
    (∃ t, s.declare table name target kind initial = .ok t ∧ s.Leads out t none) ∨
      s.declare table name target kind initial = .error (s.scene table).overflow := by
  obtain ⟨hbinds, hholds, hinit⟩ := h
  have hsees : s.arena.Sees table name target kind := ⟨hholds, table, .self, hbinds⟩
  cases initial with
  | none =>
    left
    have hkind : s.arena.Sees table name target kind.initial.kind := by
      rwa [Arena.kind_initial]
    simpa [declare] using store_of_sees hkind hsound
  | some e =>
    obtain ⟨rfl, hscoped⟩ := hinit e rfl
    obtain ⟨value, hvalue, hkind⟩ | hover :=
      Expr.eval_of_scoped (s.scene table) hsound hscoped
    · left
      simpa [declare, hvalue, bind, Except.bind] using store_of_sees (hkind ▸ hsees) hsound
    · right
      simp [declare, hover, bind, Except.bind]

theorem combine_of_kind (s : State σ) (table : TableId) {a b : Value} (h : a.kind = b.kind) :
    (∃ value, s.combine table a b = .ok value ∧ value.kind = b.kind) ∨
      s.combine table a b = .error (s.scene table).overflow := by
  match a, b with
  | .number a, .number b =>
    obtain ⟨n, hn⟩ | hn := Scene.Computes.apply (s.scene table) a .add b
    · exact .inl ⟨.number n, by simp [combine, hn, bind, Except.bind, pure, Except.pure], rfl⟩
    · exact .inr (by simp [combine, hn, bind, Except.bind])
  | .string a, .string b => exact .inl ⟨.string (a ++ b), rfl, rfl⟩
  | .number _, .string _ => cases h
  | .string _, .number _ => cases h

theorem assign_of_fits {compound : Bool} {e : Expr}
    (h : (Statement.assign position name target compound e).Fits s.arena table)
    (hsound : s.arena.Sound) :
    (∃ t, s.assign table name target compound e = .ok t ∧ s.Leads out t none) ∨
      s.assign table name target compound e = .error (s.scene table).overflow := by
  obtain ⟨hsees, hscoped⟩ := h
  obtain ⟨value, hvalue, hkind⟩ | hover :=
    Expr.eval_of_scoped (s.scene table) hsound hscoped
  · cases compound with
    | false =>
      left
      simpa [assign, hvalue, bind, Except.bind] using store_of_sees (hkind ▸ hsees) hsound
    | true =>
      have hsymbol := hsees.1
      obtain ⟨symbol, hs, -, hsymbolKind⟩ := hsymbol
      have hsame : symbol.value.kind = value.kind := by
        rw [hsound.typed hs, hsymbolKind, hkind]
      obtain ⟨sum, hsum, hsumKind⟩ | hover := combine_of_kind s table hsame
      · left
        have hsees' : s.arena.Sees table name target sum.kind := by
          rwa [hsumKind, hkind]
        simpa [assign, hvalue, hs, hsum, Scene.checked, bind, Except.bind] using
          store_of_sees hsees' hsound
      · right
        simp [assign, hvalue, hs, hover, Scene.checked, bind, Except.bind]
  · right
    simp [assign, hover, bind, Except.bind]

theorem leads_write (text : String) (hsound : s.arena.Sound) :
    s.Leads out (s.write out text).1 (s.write out text).2 := by
  unfold write
  split
  · exact .refl hsound
  · generalize hanswer : out.write s.sink text.toUTF8 = answer
    obtain ⟨refusal, sink⟩ := answer
    cases refusal with
    | none => exact ⟨.refl _, hsound, .write .idle hanswer⟩
    | some message =>
      exact ⟨.refl _, hsound, .inr ⟨message, rfl, s.sink, .idle, .inl ⟨_, hanswer⟩⟩⟩

theorem leads_flush (hsound : s.arena.Sound) :
    s.Leads out (s.flush out).1 (s.flush out).2 := by
  unfold flush
  generalize hanswer : out.flush s.sink = answer
  obtain ⟨refusal, sink⟩ := answer
  cases refusal with
  | none => exact ⟨.refl _, hsound, .flush .idle hanswer⟩
  | some message => exact ⟨.refl _, hsound, .inr ⟨message, rfl, s.sink, .idle, .inr hanswer⟩⟩

/-- What comes after a part that ended well goes on from where it left. -/
theorem Leads.trans {halt : Option Halt} {u : State σ} (hst : s.Leads out t none)
    (htu : t.Leads out u halt) : s.Leads out u halt where
  shape := hst.shape.trans htu.shape
  sound := htu.sound
  halt := Sink.Accepts.permits hst.halt htu.halt

/-- Writes a text and then a line end if `newline`. -/
def writeText (out : Sink σ) (s : State σ) (text : String) (newline : Bool) :
    State σ × Option Halt :=
  match s.write out text, newline with
  | (t, none), true => t.write out "\n"
  | result, _ => result

theorem print_none (newline : Bool) :
    s.print out table newline none = s.writeText out "" newline := rfl

theorem print_of_eval {e : Expr} (newline : Bool) (h : e.eval (s.scene table) = .ok value) :
    s.print out table newline (some e) = s.writeText out value.text newline := by
  simp only [print, h, Except.map]
  rfl

theorem print_of_halt {e : Expr} {halt : Halt} (newline : Bool)
    (h : e.eval (s.scene table) = .error halt) :
    s.print out table newline (some e) = (s, some halt) := by
  simp only [print, h, Except.map]

theorem leads_writeText (text : String) (newline : Bool) (hsound : s.arena.Sound) :
    s.Leads out (s.writeText out text newline).1 (s.writeText out text newline).2 := by
  have hfirst : s.Leads out (s.write out text).1 (s.write out text).2 := leads_write text hsound
  unfold writeText
  generalize s.write out text = result at hfirst ⊢
  obtain ⟨t, halt⟩ := result
  match halt, newline with
  | none, true => exact hfirst.trans (leads_write "\n" hfirst.sound)
  | none, false => exact hfirst
  | some _, _ => exact hfirst

theorem leads_print {newline : Bool} {payload : Option Expr}
    (h : (Statement.print position newline payload).Fits s.arena table)
    (hsound : s.arena.Sound) :
    s.Leads out (s.print out table newline payload).1 (s.print out table newline payload).2 := by
  cases payload with
  | none =>
    rw [print_none]
    exact leads_writeText "" newline hsound
  | some e =>
    obtain ⟨value, hvalue, -⟩ | hover := Expr.eval_of_scoped (s.scene table) hsound (h e rfl)
    · rw [print_of_eval newline hvalue]
      exact leads_writeText value.text newline hsound
    · rw [print_of_halt newline hover]
      exact .overflow hsound

end State

/-- The errors that were noted are overflows, and otherwise the effect is safe. -/
structure Effect.Safe (out : Sink σ) (s : State σ) (effect : Effect σ) : Prop where
  leads : s.Leads out effect.state effect.halt
  errors : ∀ e ∈ effect.errors, e.cause = .overflow

theorem Statement.safe_begin {work : State σ → State σ × Option Halt}
    (h : State.Leads out { s with position } (work { s with position }).1
      (work { s with position }).2) : (Statement.begin position s work).Safe out s where
  leads := ⟨h.shape, h.sound, h.halt⟩
  errors := by simp [Statement.begin]

theorem Statement.safe_inside {work : State σ → Effect σ} {t : Table} (position : Position)
    (ht : s.arena.table table = .ok t) (h : (work s).Safe out s) :
    (Statement.inside position table s work).Safe out s := by
  simp only [Statement.inside, Arena.contains_of_table ht, if_true]
  exact ⟨h.leads, h.errors⟩

theorem Statement.safe_runAll_cons {statement : Statement} {rest : List Statement}
    (hfirst : (statement.run out table s).Safe out s)
    (hrest : (Statement.runAll out table (statement.run out table s).state rest).Safe out
      (statement.run out table s).state) :
    (Statement.runAll out table s (statement :: rest)).Safe out s := by
  simp only [Statement.runAll]
  generalize statement.run out table s = first at hfirst hrest ⊢
  obtain ⟨t, errors, log, halt⟩ := first
  match halt with
  | none =>
    refine ⟨hfirst.leads.trans hrest.leads, ?_⟩
    exact fun e he => (List.mem_append.mp he).elim (hfirst.errors e) (hrest.errors e)
  | some (.fault f) => exact hfirst.leads.halt.elim
  | some (.error e) =>
    simp only
    split
    case isTrue => exact hfirst
    case isFalse hgoes =>
      obtain ⟨hcause, haccepts⟩ | ⟨message, hcause, -⟩ := hfirst.leads.halt
      · have hleads : s.Leads out t none := ⟨hfirst.leads.shape, hfirst.leads.sound, haccepts⟩
        refine ⟨hleads.trans hrest.leads, ?_⟩
        intro e' he'
        obtain he' | he' := List.mem_append.mp he'
        · exact hfirst.errors e' he'
        · obtain rfl | he' := List.mem_cons.mp he'
          · exact hcause
          · exact hrest.errors e' he'
      · exact absurd (by simp [RuntimeError.isFatal, hcause]) hgoes

mutual

/-- A statement that fits the arena runs safely. -/
theorem Statement.safe_run (out : Sink σ) : ∀ (statement : Statement) {s : State σ}
    {table : TableId}, statement.Fits s.arena table → s.arena.Sound →
    (statement.run out table s).Safe out s
  | .null, _, _, _, hsound => ⟨.refl hsound, by simp [Statement.run]⟩
  | .declare .., _, _, h, hsound => by
    rw [Statement.run_declare]
    exact Statement.safe_begin (State.leads_settle hsound (State.declare_of_fits h hsound))
  | .assign .., _, _, h, hsound => by
    rw [Statement.run_assign]
    exact Statement.safe_begin (State.leads_settle hsound (State.assign_of_fits h hsound))
  | .print .., _, _, h, hsound => by
    rw [Statement.run]
    exact Statement.safe_begin (State.leads_print h hsound)
  | .block position inner body, s, _, ⟨⟨_, ht, _⟩, hbody⟩, hsound => by
    let begun : State σ := { s with position }
    have hall : (Statement.runAll out inner begun body).Safe out begun :=
      Statement.safe_runAll out body hbody hsound
    have hinside : (Statement.inside position inner begun fun s =>
        Statement.runAll out inner s body).Safe out begun := Statement.safe_inside position ht hall
    simp only [Statement.run]
    exact ⟨⟨hinside.leads.shape, hinside.leads.sound, hinside.leads.halt⟩, hinside.errors⟩

theorem Statement.safe_runAll (out : Sink σ) : ∀ (body : List Statement) {s : State σ}
    {table : TableId}, Statement.AllFit s.arena table body → s.arena.Sound →
    (Statement.runAll out table s body).Safe out s
  | [], _, _, _, hsound => ⟨.refl hsound, by simp [Statement.runAll]⟩
  | statement :: rest, s, table, ⟨hfirst, hrest⟩, hsound => by
    have hrun : (statement.run out table s).Safe out s :=
      Statement.safe_run out statement hfirst hsound
    exact Statement.safe_runAll_cons hrun
      (Statement.safe_runAll out rest (hrest.mono hrun.leads.shape) hrun.leads.sound)

end

end run

/-! ## Programs -/

/-- What a run relies on and keeps: the tree fits the arena, and values have the
kinds of their symbols. -/
structure Program.Sound (p : Program) : Prop where
  arena : p.arena.Sound
  root : ∃ t, p.arena.table p.root.table = .ok t
  body : Statement.AllFit p.arena p.root.table p.root.body

theorem Program.WellFormed.sound {p : Program} (h : p.WellFormed) : p.Sound where
  arena := h.initial.sound h.layered
  root := h.outermost.imp fun _ ht => ht.1
  body := h.body

theorem Program.sound_parse (lines : List String) : (parse lines).program.Sound := by
  unfold parse
  simp only
  split
  · exact (wellFormed_ofTokens _).sound
  · exact wellFormed_empty.sound

/-- The second program is what the first became by some runs, each by any executor
and into any sink. -/
inductive Program.Executed (p : Program) : Program → Prop where
  | start : Executed p p
  | again {q : Program} (h : Executed p q) {σ : Type} (out : Sink σ) (x : Executor) (sink : σ) :
      Executed p (x.execute out q sink).program

namespace Executor

variable {σ : Type} {out : Sink σ} {x : Executor} {p q : Program} {sink : σ}

theorem safe_runRoot {s : State σ} {root : Block} {t : Table}
    (ht : s.arena.table root.table = .ok t)
    (hbody : Statement.AllFit s.arena root.table root.body) (hsound : s.arena.Sound) :
    (runRoot out s root).Safe out s := by
  have hinside : (Statement.inside root.position root.table s fun s =>
      Statement.runAll out root.table s root.body).Safe out s :=
    Statement.safe_inside root.position ht (Statement.safe_runAll out root.body hbody hsound)
  unfold runRoot
  simp only
  generalize (Statement.inside root.position root.table s fun s =>
    Statement.runAll out root.table s root.body) = effect at hinside ⊢
  obtain ⟨t, errors, log, halt⟩ := effect
  match halt with
  | some _ => exact hinside
  | none => exact ⟨hinside.leads.trans (State.leads_flush hinside.leads.sound), hinside.errors⟩

/-- A run of a sound program leaves a sound program and has no other errors than
overflows and refusals of its sink. -/
theorem execute_of_sound (h : p.Sound) (out : Sink σ) (x : Executor) (sink : σ) :
    (x.execute out p sink).program.Sound ∧ (x.execute out p sink).fault = none ∧
      ∃ added, (x.execute out p sink).executor.errors = x.errors ++ added ∧
        ∀ e ∈ added, e.cause = .overflow ∨
          ∃ message, e.cause = .output message ∧
            out.Refuses sink (x.execute out p sink).sink message := by
  obtain ⟨t, ht⟩ := h.root
  have hrun : (runRoot out { arena := p.arena, sink, position := x.position } p.root).Safe out
      { arena := p.arena, sink, position := x.position } := safe_runRoot ht h.body h.arena
  unfold execute
  simp only
  generalize runRoot out { arena := p.arena, sink, position := x.position } p.root = effect
    at hrun ⊢
  obtain ⟨s, errors, log, halt⟩ := effect
  have hsound : Program.Sound { p with arena := s.arena } := by
    obtain ⟨u, hu, -⟩ := hrun.leads.shape.table ht
    exact ⟨hrun.leads.sound, ⟨u, hu⟩, h.body.mono hrun.leads.shape⟩
  match halt with
  | none => exact ⟨hsound, rfl, errors, rfl, fun e he => .inl (hrun.errors e he)⟩
  | some (.fault f) => exact hrun.leads.halt.elim
  | some (.error e) =>
    refine ⟨hsound, rfl, errors ++ [e], List.append_assoc .., ?_⟩
    intro e' he'
    obtain he' | he' := List.mem_append.mp he'
    · exact .inl (hrun.errors e' he')
    · cases List.mem_singleton.mp he'
      obtain ⟨hcause, -⟩ | hrefused := hrun.leads.halt
      · exact .inl hcause
      · exact .inr hrefused

theorem sound_of_executed (h : p.Executed q) (hp : p.Sound) : q.Sound := by
  induction h with
  | start => exact hp
  | again _ out x sink ih => exact (execute_of_sound ih out x sink).1

/-- However often a program that was read has been run, its next run breaks off at no
handle and adds only overflows and, if the sink refused a request, output errors with
the sink's message. -/
theorem execute_parse_safe {lines : List String} (h : (Program.parse lines).program.Executed p)
    (out : Sink σ) (x : Executor) (sink : σ) :
    (x.execute out p sink).fault = none ∧
      ∃ added, (x.execute out p sink).executor.errors = x.errors ++ added ∧
        ∀ e ∈ added, e.cause = .overflow ∨
          ∃ message, e.cause = .output message ∧
            out.Refuses sink (x.execute out p sink).sink message :=
  (execute_of_sound (sound_of_executed h (Program.sound_parse lines)) out x sink).2

/-- A script that overflows and has a statement that was not understood, run twice by
one executor into one buffer. -/
theorem execute_parse_safe_twice :
    let program :=
      (Program.parse ["var x number = 9223372036854775807", "x + 1", "x += 1"]).program
    let first := fresh.execute Buffer.sink program Buffer.unlimited
    let second := first.executor.execute Buffer.sink first.program first.sink
    program.Executed first.program ∧ second.fault = none ∧
      ∃ added, second.executor.errors = first.executor.errors ++ added ∧
        ∀ e ∈ added, e.cause = .overflow ∨
          ∃ message, e.cause = .output message ∧
            Buffer.sink.Refuses first.sink second.sink message :=
  ⟨.again .start .., execute_parse_safe (.again .start ..) _ _ _⟩

end Executor

end LineScript
