import LineScript.Proofs.Dynamic
import LineScript.Proofs.Reading.Scopes
import LineScript.Proofs.Running
import Mathlib.Data.List.Nodup

/-!
# Handles and names side by side

A program keeps all values in one arena and finds them by handles that were fixed
when it was read. Its meaning in `Dynamic` knows no handles, only frames of names.
`Agrees` relates the two while they run: the frames hold the values that the arena
has for the bindings in scope, and the frames of blocks that were left show the last
values of their variables.

Every symbol stands in at most one frame, so a store changes one entry
(`Frames.map_value?_stored`). A symbol that is not declared yet still has its initial
value, because symbols are handed out in the order of the text. Each statement that
holds no statements keeps the agreement, and so do entering and leaving a block.
-/

namespace LineScript

/-! ## Values of bindings -/

/-- The value that the arena holds for a binding. -/
def Arena.value? (a : Arena) (b : Binding) : Option Value :=
  match a.symbol b.symbol with
  | .ok s => some s.value
  | .error _ => none

section value

variable {a : Arena} {b : Arena.Binding} {s : Symbol} {target : SymbolId} {v : Value}
variable {frames : Frames Arena.Binding} {name : String}

theorem Arena.value?_eq (hs : a.symbol b.symbol = .ok s) : a.value? b = some s.value := by
  simp [value?, hs]

theorem Arena.value?_stored_self (hs : a.symbol b.symbol = .ok s) :
    (a.stored b.symbol v).value? b = some v := by
  simp [value?, symbol_stored_self hs]

theorem Arena.value?_stored_of_ne (h : b.symbol ≠ target) :
    (a.stored target v).value? b = a.value? b := by
  simp [value?, symbol_stored_of_ne h]

namespace Frames

/-- A store is not seen in frames that do not bind the symbol. -/
theorem map_value?_stored_of_notMem (h : target ∉ frames.symbols) :
    frames.map (a.stored target v).value? = frames.map a.value? := by
  refine map_congr fun entry he => Arena.value?_stored_of_ne ?_
  rintro rfl
  exact h (mem_symbols_of_mem he)

/-- A store into the symbol that a name finds is an assignment to the name. -/
theorem map_value?_stored (hnames : ∀ frame ∈ frames, (List.map Prod.fst frame).Nodup)
    (hdistinct : frames.symbols.Nodup) (hlookup : frames.lookup name = some b)
    (hs : a.symbol b.symbol = .ok s) :
    frames.map (a.stored b.symbol v).value? = (frames.map a.value?).assign name (some v) := by
  induction frames with
  | nil => cases hlookup
  | cons frame frames ih =>
    rw [symbols_cons, List.nodup_append'] at hdistinct
    obtain ⟨hframe, houter, hdisjoint⟩ := hdistinct
    rw [map_cons, map_cons]
    rw [lookup_cons, Option.or_eq_some_iff] at hlookup
    obtain hfind | ⟨hfind, hlookup⟩ := hlookup
    · have hmem := Frame.mem_of_find? hfind
      have hhere : b.symbol ∈ List.map (·.2.symbol) frame := List.mem_map_of_mem hmem
      rw [assign_cons_of_some (by rw [Frame.find?_map, hfind]; rfl),
        map_value?_stored_of_notMem fun h => hdisjoint hhere h]
      congr 1
      refine Frame.map_eq_set ?_ ?_
      · intro entry he hname
        have heq := List.inj_on_of_nodup_map (hnames frame List.mem_cons_self) he hmem hname
        rw [heq]
        exact Arena.value?_stored_self hs
      · intro entry he hname
        refine Arena.value?_stored_of_ne fun hsymbol => hname ?_
        rw [List.inj_on_of_nodup_map hframe he hmem hsymbol]
    · have hthere := mem_symbols_of_lookup hlookup
      have hsame : Frame.map (a.stored b.symbol v).value? frame = Frame.map a.value? frame := by
        refine Frame.map_congr fun entry he => Arena.value?_stored_of_ne ?_
        intro hsymbol
        exact hdisjoint (hsymbol ▸ List.mem_map_of_mem he) hthere
      rw [assign_cons_of_none (by rw [Frame.find?_map, hfind]; rfl), hsame,
        ih (fun frame h => hnames frame (List.mem_cons_of_mem _ h)) houter hlookup]

end Frames

end value

/-! ## Expressions -/

/-- Two evaluations have the same result: a value, or an overflow. -/
inductive Scene.Matches {α : Type} (scene : Scene) :
    Except Halt α → Except Dynamic.Failure α → Prop where
  | value (x : α) : Matches scene (.ok x) (.ok x)
  | overflow : Matches scene (.error scene.overflow) (.error .overflow)

/-- The variable has one value of the kind, in the arena and in the frames. -/
def Reference.Shows (scene : Scene) (env : Frames Value) (kind : Kind) (ref : Reference) : Prop :=
  ∃ v, v.kind = kind ∧ ref.read scene = .ok v ∧ env.lookup ref.name = some v

section eval

variable {scene : Scene} {env : Frames Value} {ref : Reference}

namespace Scene.Matches

theorem bind {α β : Type} {r : Except Halt α} {q : Except Dynamic.Failure α}
    {f : α → Except Halt β} {g : α → Except Dynamic.Failure β} (h : scene.Matches r q)
    (hf : ∀ x, r = .ok x → scene.Matches (f x) (g x)) : scene.Matches (r >>= f) (q >>= g) := by
  cases h with
  | value x => exact hf x rfl
  | overflow => exact .overflow

theorem inRange (result : Option Number) :
    scene.Matches (scene.inRange result) (Dynamic.inRange result) := by
  cases result with
  | none => exact .overflow
  | some n => exact .value n

theorem apply (a : Number) (op : Operator) (b : Number) :
    scene.Matches (scene.apply a op b) (Dynamic.apply a op b) := by
  cases op with
  | add => exact .inRange _
  | sub => exact .inRange _
  | mul => exact .inRange _
  | div => exact .value _

end Scene.Matches

theorem Reference.Shows.matches_number (h : ref.Shows scene env .number) :
    scene.Matches (ref.readNumber scene) (Dynamic.number env ref.name) := by
  obtain ⟨v, hkind, hread, hlookup⟩ := h
  unfold Reference.readNumber Dynamic.number Dynamic.value
  rw [hread, hlookup]
  cases v with
  | number n => exact .value n
  | string text => cases hkind

theorem Reference.Shows.matches_text (h : ref.Shows scene env .string) :
    scene.Matches (ref.readString scene) (Dynamic.text env ref.name) := by
  obtain ⟨v, hkind, hread, hlookup⟩ := h
  unfold Reference.readString Dynamic.text Dynamic.value
  rw [hread, hlookup]
  cases v with
  | number n => cases hkind
  | string text => exact .value text

mutual

theorem NumExpr.matches_eval : ∀ e : NumExpr, (∀ ref ∈ e.references, ref.Shows scene env .number) →
    scene.Matches (e.eval scene) (Dynamic.evalNum env e)
  | .single term, h => Term.matches_eval term h
  | .chain term op rest, h => by
    have hterm := Term.matches_eval term fun ref href => h ref (List.mem_append_left _ href)
    have hrest := NumExpr.matches_eval rest fun ref href => h ref (List.mem_append_right _ href)
    exact hterm.bind fun a _ => hrest.bind fun b _ => .apply a op b

theorem Term.matches_eval : ∀ e : Term, (∀ ref ∈ e.references, ref.Shows scene env .number) →
    scene.Matches (e.eval scene) (Dynamic.evalTerm env e)
  | .single factor, h => Factor.matches_eval factor h
  | .chain factor op rest, h => by
    have hfactor := Factor.matches_eval factor fun ref href => h ref (List.mem_append_left _ href)
    have hrest := Term.matches_eval rest fun ref href => h ref (List.mem_append_right _ href)
    exact hfactor.bind fun a _ => hrest.bind fun b _ => .apply a op b

theorem Factor.matches_eval : ∀ e : Factor, (∀ ref ∈ e.references, ref.Shows scene env .number) →
    scene.Matches (e.eval scene) (Dynamic.evalFactor env e)
  | .literal n, _ => .value n
  | .paren inner, h => NumExpr.matches_eval inner h
  | .negate inner, h => (Factor.matches_eval inner h).bind fun a _ => .apply a .mul (.integer (-1))
  | .reference ref, h => (h ref (List.mem_singleton_self ref)).matches_number

end

theorem StringOperand.matches_eval (o : StringOperand)
    (h : ∀ ref ∈ o.references, ref.Shows scene env .string) :
    scene.Matches (o.eval scene) (Dynamic.evalOperand env o) := by
  cases o with
  | literal text => exact .value text
  | reference ref => exact (h ref (List.mem_singleton_self ref)).matches_text

theorem StringExpr.matches_eval (e : StringExpr)
    (h : ∀ ref ∈ e.references, ref.Shows scene env .string) :
    scene.Matches (e.eval scene) (Dynamic.evalString env e) := by
  induction e with
  | single o => exact o.matches_eval h
  | chain o rest ih =>
    have hoperand := o.matches_eval fun ref href => h ref (List.mem_append_left _ href)
    have hrest := ih fun ref href => h ref (List.mem_append_right _ href)
    exact hoperand.bind fun a _ => hrest.bind fun b _ => .value (a ++ b)

/-- The frames show the value of a binding under its name. -/
theorem Frames.lookup_of_map_eq {frames : Frames Arena.Binding} {f : Arena.Binding → Option Value}
    {name : String} {b : Arena.Binding} {v : Value} (henv : frames.map f = Frames.map some env)
    (hlookup : frames.lookup name = some b) (hv : f b = some v) : env.lookup name = some v := by
  have hnames := congrArg (fun frames => Frames.lookup frames name) henv
  simp only [Frames.lookup_map, hlookup, Option.map_some, hv] at hnames
  cases hname : env.lookup name with
  | none => simp [hname] at hnames
  | some w => simpa [hname] using hnames.symm

/-- An expression whose handles are those of its names is evaluated by names. -/
theorem Expr.matches_eval {frames : Frames Arena.Binding} (scene : Scene) {e : Expr}
    (hsound : scene.arena.Sound) (hscoped : e.Scoped scene.arena scene.table)
    (hresolved : e.Resolved frames)
    (henv : frames.map scene.arena.value? = Frames.map some env) :
    scene.Matches (e.eval scene) (Dynamic.eval env e) := by
  have hshows : ∀ ref ∈ e.references, ref.Shows scene env e.kind := by
    intro ref href
    obtain ⟨s, hs, hkind, hread⟩ := Reference.read_of_sees (hscoped ref href) hsound.layered
    refine ⟨s.value, (hsound.typed hs).trans hkind, hread, ?_⟩
    exact Frames.lookup_of_map_eq henv (hresolved ref href) (Arena.value?_eq hs)
  cases e with
  | number e => exact (e.matches_eval hshows).bind fun n _ => .value (Value.number n)
  | string e => exact (e.matches_eval hshows).bind fun text _ => .value (Value.string text)

end eval

/-! ## The layout of frames -/

namespace Statement

/-- What the statement declares in its own block. -/
def bindings : Statement → Frame Arena.Binding
  | .declare _ name symbol kind _ => [(name, { symbol, kind })]
  | _ => []

/-- The frame of a block behind its statements, with the last declaration first. -/
def bindingsAll : List Statement → Frame Arena.Binding
  | [] => []
  | statement :: rest => bindingsAll rest ++ statement.bindings

mutual

/-- The last frames of the blocks in a statement, in the order in which the blocks end. -/
def closed : Statement → Frames Arena.Binding
  | .block _ _ body => closedAll body ++ [bindingsAll body]
  | _ => []

def closedAll : List Statement → Frames Arena.Binding
  | [] => []
  | statement :: rest => statement.closed ++ closedAll rest

end

theorem scope_cons (statement : Statement) (frame : Frame Arena.Binding)
    (outer : Frames Arena.Binding) :
    statement.scope (frame :: outer) = (statement.bindings ++ frame) :: outer := by
  cases statement <;> rfl

end Statement

/-- No symbol stands in two places of the frames or of those that are gone, no name
twice in a frame, and all symbols were handed out before the given one. -/
structure Frames.Layout (low : Nat) (frames gone : Frames Arena.Binding) : Prop where
  names : ∀ frame ∈ frames, (List.map Prod.fst frame).Nodup
  distinct : (frames ++ gone).symbols.Nodup
  below : ∀ target ∈ (frames ++ gone).symbols, target.index < low

namespace Frames.Layout

variable {low high : Nat} {frames gone : Frames Arena.Binding} {frame : Frame Arena.Binding}
variable {name : String} {b : Arena.Binding}

theorem mono (h : Layout low frames gone) (hle : low ≤ high) : Layout high frames gone where
  names := h.names
  distinct := h.distinct
  below target ht := Nat.lt_of_lt_of_le (h.below target ht) hle

theorem enter (h : Layout low frames gone) : Layout low ([] :: frames) gone where
  names := List.forall_mem_cons.mpr ⟨List.nodup_nil, h.names⟩
  distinct := by simpa using h.distinct
  below := by simpa using h.below

theorem leave (h : Layout low (frame :: frames) gone) : Layout low frames (gone ++ [frame]) := by
  have hperm : (frame :: frames ++ gone).Perm (frames ++ (gone ++ [frame])) := by
    rw [← List.append_assoc]
    exact (List.perm_append_singleton frame (frames ++ gone)).symm
  have hsymbols : (symbols (frame :: frames ++ gone)).Perm
      (symbols (frames ++ (gone ++ [frame]))) := hperm.flatten.map _
  exact
    { names := fun f hf => h.names f (List.mem_cons_of_mem frame hf)
      distinct := hsymbols.nodup_iff.mp h.distinct
      below := fun target ht => h.below target (hsymbols.mem_iff.mpr ht) }

/-- A new symbol may be bound to a new name. -/
theorem bind (h : Layout low frames gone) (hfree : frames.top? name = none)
    (hlow : low ≤ b.symbol.index) (hhigh : b.symbol.index < high) :
    Layout high (frames.bind name b) gone := by
  have hle : low ≤ high := Nat.le_trans hlow (Nat.le_of_lt hhigh)
  cases frames with
  | nil => exact h.mono hle
  | cons frame frames =>
    have hnames := List.forall_mem_cons.mp h.names
    have hnew : b.symbol ∉ symbols (frame :: frames ++ gone) := by
      intro hmem
      exact Nat.lt_irrefl _ (Nat.lt_of_lt_of_le (h.below _ hmem) hlow)
    refine ⟨?_, ?_, ?_⟩
    · refine List.forall_mem_cons.mpr ⟨?_, hnames.2⟩
      exact List.nodup_cons.mpr ⟨Frame.find?_eq_none_iff.mp hfree, hnames.1⟩
    · exact List.nodup_cons.mpr ⟨hnew, h.distinct⟩
    · refine List.forall_mem_cons.mpr ⟨hhigh, ?_⟩
      exact (h.mono hle).below

end Frames.Layout

/-! ## Two runs side by side -/

namespace Statement

variable {σ : Type} {s t : State σ} {position : Position}

/-- Work that succeeds leaves its own state and notes nothing. -/
theorem begin_of_ok (work : State σ → Except Halt (State σ))
    (h : work { s with position } = .ok t) :
    (begin position s fun s => s.settle (work s)).state = t ∧
      (begin position s fun s => s.settle (work s)).noted = [] := by
  simp [begin, h, State.settle, Effect.noted, Halt.errors]

/-- Work that fails leaves the state as it was and notes its error. -/
theorem begin_of_error (work : State σ → Except Halt (State σ)) {e : RuntimeError}
    (h : work { s with position } = .error (.error e)) :
    (begin position s fun s => s.settle (work s)).state = { s with position } ∧
      (begin position s fun s => s.settle (work s)).noted = [e] := by
  simp [begin, h, State.settle, Effect.noted, Halt.errors]

end Statement

namespace State

variable {σ : Type} {s : State σ} {table : TableId}

theorem matches_combine {old v : Value} (h : old.kind = v.kind) :
    (s.scene table).Matches (s.combine table old v) (Dynamic.add old v) := by
  match old, v with
  | .number a, .number b => exact (Scene.Matches.inRange _).bind fun n _ => .value (Value.number n)
  | .string a, .string b => exact .value (Value.string (a ++ b))
  | .number _, .string _ => cases h
  | .string _, .number _ => cases h

end State

/-- A running program and its meaning by names have come to the same point. The
program began with the sink in the state `start`. The bindings of `frames` are in
scope and those of `gone` are in blocks that were left; no symbol from `low` on was
reached yet. -/
structure Agrees {σ : Type} (out : Sink σ) (bytes : σ → ByteArray) (start : σ) (low : Nat)
    (frames gone : Frames Arena.Binding) (s : State σ) (noted : List RuntimeError)
    (d : Dynamic.State) : Prop where
  sound : s.arena.Sound
  layout : frames.Layout low gone
  later : ∀ ⦃target r⦄, low ≤ target.index → s.arena.symbol target = .ok r →
    r.value = r.kind.initial
  frames : frames.map s.arena.value? = Frames.map some d.frames
  gone : gone.map s.arena.value? = Frames.map some d.closed
  sink : out.Accepts start s.sink
  output : bytes s.sink = bytes start ++ d.output
  errors : d.errors = noted

namespace Agrees

variable {σ : Type} {out : Sink σ} {bytes : σ → ByteArray} {start : σ} {low high : Nat}
variable {frames gone : Frames Arena.Binding} {s : State σ} {noted : List RuntimeError}
variable {d : Dynamic.State} {name : String} {b : Arena.Binding} {r : Symbol} {v : Value}

theorem mono (h : Agrees out bytes start low frames gone s noted d) (hle : low ≤ high) :
    Agrees out bytes start high frames gone s noted d :=
  { h with
    layout := h.layout.mono hle
    later := fun _ _ hlow hr => h.later (Nat.le_trans hle hlow) hr }

theorem begin (h : Agrees out bytes start low frames gone s noted d) (position : Position) :
    Agrees out bytes start low frames gone { s with position } noted d :=
  ⟨h.sound, h.layout, h.later, h.frames, h.gone, h.sink, h.output, h.errors⟩

theorem report (h : Agrees out bytes start low frames gone s noted d) (position : Position) :
    Agrees out bytes start low frames gone s (noted ++ [{ position, cause := .overflow }])
      (d.report position) :=
  { h with errors := by rw [← h.errors]; rfl }

theorem enter (h : Agrees out bytes start low frames gone s noted d) :
    Agrees out bytes start low ([] :: frames) gone s noted d.enter :=
  { h with
    layout := h.layout.enter
    frames := congrArg ([] :: ·) h.frames }

theorem leave {frame : Frame Arena.Binding}
    (h : Agrees out bytes start low (frame :: frames) gone s noted d) :
    ∃ d', d.leave = some d' ∧ Agrees out bytes start low frames (gone ++ [frame]) s noted d' := by
  obtain ⟨values, closed, output, errors⟩ := d
  have hframes := h.frames
  cases values with
  | nil => cases hframes
  | cons top outer =>
    simp only [Frames.map_cons, List.cons.injEq] at hframes
    refine ⟨_, rfl, { h with layout := h.layout.leave, frames := hframes.2, gone := ?_ }⟩
    have hgone := h.gone
    simp only [Frames.map] at hgone ⊢
    simp [hgone, hframes.1]

/-- An assignment to a name stores a value in the symbol that the name finds. -/
theorem assign (h : Agrees out bytes start low frames gone s noted d)
    (hlookup : frames.lookup name = some b) (hr : s.arena.symbol b.symbol = .ok r)
    (hkind : v.kind = r.kind) :
    Agrees out bytes start low frames gone
      { s with arena := s.arena.stored b.symbol v } noted (d.assign name v) := by
  have hmem := Frames.mem_symbols_of_lookup hlookup
  have hdistinct := h.layout.distinct
  rw [Frames.symbols_append, List.nodup_append'] at hdistinct
  obtain ⟨hframes, -, hdisjoint⟩ := hdistinct
  refine { h with sound := h.sound.stored hr hkind, later := ?_, frames := ?_, gone := ?_ }
  · intro target r' hlow hr'
    have hne : target ≠ b.symbol := by
      rintro rfl
      have hbelow := h.layout.below b.symbol (by simp [hmem])
      exact Nat.lt_irrefl _ (Nat.lt_of_lt_of_le hbelow hlow)
    exact h.later hlow ((Arena.symbol_stored_of_ne hne).symm.trans hr')
  · rw [Frames.map_value?_stored h.layout.names hframes hlookup hr, h.frames]
    exact Frames.map_assign.symm
  · exact (Frames.map_value?_stored_of_notMem fun hgone => hdisjoint hmem hgone).trans h.gone

/-- A declaration binds a name to the value that its symbol has afterwards. Nothing
else may have changed in the arena. -/
theorem bind {a : Arena} (h : Agrees out bytes start low frames gone s noted d)
    (hfree : frames.top? name = none) (hlow : low ≤ b.symbol.index)
    (hhigh : b.symbol.index < high) (hsound : a.Sound) (hvalue : a.value? b = some v)
    (hother : ∀ target, target ≠ b.symbol → a.symbol target = s.arena.symbol target) :
    Agrees out bytes start high (frames.bind name b) gone { s with arena := a } noted
      (d.bind name v) := by
  have hvalues {kept : Frames Arena.Binding} (hkept : ∀ target ∈ kept.symbols, target.index < low) :
      kept.map a.value? = kept.map s.arena.value? := by
    refine Frames.map_congr fun entry he => ?_
    have hne : entry.2.symbol ≠ b.symbol := by
      intro heq
      have hlt := hkept _ (Frames.mem_symbols_of_mem he)
      rw [heq] at hlt
      exact Nat.lt_irrefl _ (Nat.lt_of_lt_of_le hlt hlow)
    simp only [Arena.value?, hother _ hne]
  have hbelow := h.layout.below
  rw [Frames.symbols_append] at hbelow
  refine { h with
    sound := hsound
    layout := h.layout.bind hfree hlow hhigh
    later := ?_
    frames := ?_
    gone := ?_ }
  · intro target r' hle hr'
    have hne : target ≠ b.symbol := by
      rintro rfl
      exact Nat.lt_irrefl _ (Nat.lt_of_lt_of_le hhigh hle)
    rw [hother target hne] at hr'
    exact h.later (Nat.le_trans hlow (Nat.le_trans (Nat.le_of_lt hhigh) hle)) hr'
  · have hframes := hvalues fun target ht => hbelow target (List.mem_append_left _ ht)
    rw [Frames.map_bind, hframes, h.frames, hvalue]
    exact Frames.map_bind.symm
  · exact (hvalues fun target ht => hbelow target (List.mem_append_right _ ht)).trans h.gone

/-- What is written reaches the sink whole. -/
theorem write (hlossless : out.Lossless bytes start)
    (h : Agrees out bytes start low frames gone s noted d) (text : String) :
    (s.write out text).2 = none ∧
      Agrees out bytes start low frames gone (s.write out text).1 noted (d.write text) := by
  obtain ⟨sink, hwrite, haccepts, hbytes⟩ := State.write_of_lossless hlossless h.sink text
  rw [hwrite]
  refine ⟨rfl, { h with sink := haccepts, output := ?_ }⟩
  rw [hbytes, h.output, ByteArray.append_assoc]
  rfl

theorem writeText (hlossless : out.Lossless bytes start)
    (h : Agrees out bytes start low frames gone s noted d) (text : String) (newline : Bool) :
    (s.writeText out text newline).2 = none ∧
      Agrees out bytes start low frames gone (s.writeText out text newline).1 noted
        (d.write (if newline then text ++ "\n" else text)) := by
  obtain ⟨hnone, hfirst⟩ := h.write hlossless text
  unfold State.writeText
  generalize s.write out text = result at hnone hfirst
  obtain ⟨t, halt⟩ := result
  cases hnone
  cases newline with
  | false => exact ⟨rfl, hfirst⟩
  | true =>
    obtain ⟨hnone, hsecond⟩ := hfirst.write hlossless "\n"
    have hwrites : (d.write text).write "\n" = d.write (text ++ "\n") := by
      simp [Dynamic.State.write, String.toByteArray_append, ByteArray.append_assoc]
    rw [hwrites] at hsecond
    exact ⟨hnone, hsecond⟩

/-! ### Statements -/

section statement

variable {table : TableId} {position : Position} {target : SymbolId} {kind : Kind}

theorem run_declare {initial : Option Expr}
    (h : Agrees out bytes start low frames gone s noted d)
    (hfits : (Statement.declare position name target kind initial).Fits s.arena table)
    (hresolved : (Statement.declare position name target kind initial).Resolved frames)
    (hlow : low ≤ target.index) (hhigh : target.index < high) :
    ∃ d', Dynamic.run d (.declare position name target kind initial) = some d' ∧
      Agrees out bytes start high (frames.bind name { symbol := target, kind }) gone
        ((Statement.declare position name target kind initial).run out table s).state
        (noted ++ ((Statement.declare position name target kind initial).run out table s).noted)
        d' := by
  obtain ⟨hbinds, hholds, hinit⟩ := hfits
  obtain ⟨hfree, hinitial⟩ := hresolved
  have hsees : s.arena.Sees table name target kind := ⟨hholds, table, .self, hbinds⟩
  obtain ⟨r, hr, -, hkind⟩ := hholds
  have hbegun := h.begin position
  -- A value of the right kind is stored, and both runs bind the name to it.
  have stored {v : Value} (hv : v.kind = kind) :
      State.store { s with position } table name target v =
          .ok { s with position, arena := s.arena.stored target v } ∧
        Agrees out bytes start high (frames.bind name { symbol := target, kind }) gone
          { s with position, arena := s.arena.stored target v } noted (d.bind name v) := by
    refine ⟨State.store_eq_of_sees (hv ▸ hsees) h.sound, ?_⟩
    exact hbegun.bind hfree hlow hhigh (h.sound.stored hr (hv.trans hkind.symm))
      (Arena.value?_stored_self hr) fun _ hne => Arena.symbol_stored_of_ne hne
  rw [Statement.run_declare]
  cases initial with
  | none =>
    obtain ⟨hstore, hagrees⟩ := stored (Arena.kind_initial kind)
    obtain ⟨hstate, hnoted⟩ := Statement.begin_of_ok
      (fun s => s.declare table name target kind none) hstore
    exact ⟨_, rfl, by rwa [hstate, hnoted, List.append_nil]⟩
  | some e =>
    obtain ⟨rfl, hscoped⟩ := hinit e rfl
    have hmatches := Expr.matches_eval (State.scene { s with position } table) h.sound hscoped
      (hinitial e rfl) h.frames
    rw [Dynamic.run]
    generalize heval : e.eval (State.scene { s with position } table) = result at hmatches
    generalize Dynamic.eval d.frames e = dynamic at hmatches
    cases hmatches with
    | value v =>
      obtain ⟨hstore, hagrees⟩ := stored (Expr.kind_of_eval heval)
      have hdeclare : State.declare { s with position } table name target e.kind (some e) =
          .ok { s with position, arena := s.arena.stored target v } := by
        simp only [State.declare, heval]
        exact hstore
      obtain ⟨hstate, hnoted⟩ := Statement.begin_of_ok
        (fun s => s.declare table name target e.kind (some e)) hdeclare
      exact ⟨_, rfl, by rwa [hstate, hnoted, List.append_nil]⟩
    | overflow =>
      have hdeclare : State.declare { s with position } table name target e.kind (some e) =
          .error (.error { position, cause := .overflow }) := by
        simp only [State.declare, heval]
        rfl
      have hvalue : s.arena.value? { symbol := target, kind := e.kind } = some e.kind.initial := by
        rw [Arena.value?_eq hr, h.later hlow hr, hkind]
      obtain ⟨hstate, hnoted⟩ := Statement.begin_of_error
        (fun s => s.declare table name target e.kind (some e)) hdeclare
      refine ⟨_, rfl, ?_⟩
      rw [hstate, hnoted]
      exact (hbegun.bind hfree hlow hhigh h.sound hvalue fun _ _ => rfl).report position

theorem run_assign {compound : Bool} {e : Expr}
    (h : Agrees out bytes start low frames gone s noted d)
    (hfits : (Statement.assign position name target compound e).Fits s.arena table)
    (hresolved : (Statement.assign position name target compound e).Resolved frames) :
    ∃ d', Dynamic.run d (.assign position name target compound e) = some d' ∧
      Agrees out bytes start low frames gone
        ((Statement.assign position name target compound e).run out table s).state
        (noted ++ ((Statement.assign position name target compound e).run out table s).noted)
        d' := by
  obtain ⟨hsees, hscoped⟩ := hfits
  obtain ⟨hlookup, hvalue⟩ := hresolved
  obtain ⟨r, hr, -, hkind⟩ := hsees.1
  have hold : r.value.kind = e.kind := (h.sound.typed hr).trans hkind
  have hname : d.frames.lookup name = some r.value :=
    Frames.lookup_of_map_eq h.frames hlookup (Arena.value?_eq hr)
  have hmatches : (State.scene { s with position } table).Matches
      (State.assigned { s with position } table r.value compound e)
      (Dynamic.assigned d.frames name compound e) := by
    rw [Dynamic.assigned, Dynamic.value, hname]
    refine (Expr.matches_eval _ h.sound hscoped hvalue h.frames).bind fun v hv => ?_
    cases compound with
    | false => exact .value v
    | true => exact State.matches_combine (hold.trans (Expr.kind_of_eval hv).symm)
  have hassign : State.assign { s with position } table name target compound e =
      State.assigned { s with position } table r.value compound e >>=
        State.store { s with position } table name target := State.assign_eq hr
  rw [Statement.run_assign, Dynamic.run]
  generalize hassigned : State.assigned { s with position } table r.value compound e = result
    at hmatches hassign
  generalize Dynamic.assigned d.frames name compound e = dynamic at hmatches
  cases hmatches with
  | value v =>
    have hv : v.kind = e.kind := State.kind_of_assigned hold hassigned
    obtain ⟨hstate, hnoted⟩ := Statement.begin_of_ok
      (fun s => s.assign table name target compound e)
      (hassign.trans (State.store_eq_of_sees (hv ▸ hsees) h.sound))
    refine ⟨_, rfl, ?_⟩
    rw [hstate, hnoted, List.append_nil]
    exact (h.begin position).assign hlookup hr (hv.trans hkind.symm)
  | overflow =>
    obtain ⟨hstate, hnoted⟩ := Statement.begin_of_error
      (fun s => s.assign table name target compound e) hassign
    refine ⟨_, rfl, ?_⟩
    rw [hstate, hnoted]
    exact (h.begin position).report position

theorem run_print {newline : Bool} {payload : Option Expr} (hlossless : out.Lossless bytes start)
    (h : Agrees out bytes start low frames gone s noted d)
    (hfits : (Statement.print position newline payload).Fits s.arena table)
    (hresolved : (Statement.print position newline payload).Resolved frames) :
    ∃ d', Dynamic.run d (.print position newline payload) = some d' ∧
      Agrees out bytes start low frames gone
        ((Statement.print position newline payload).run out table s).state
        (noted ++ ((Statement.print position newline payload).run out table s).noted) d' := by
  have hbegun := h.begin position
  rw [Statement.run, Dynamic.run, Statement.begin, Effect.noted]
  cases payload with
  | none =>
    obtain ⟨hnone, hagrees⟩ := hbegun.writeText hlossless "" newline
    refine ⟨_, rfl, ?_⟩
    simp only [State.print_none, hnone, Halt.errors, List.append_nil]
    exact hagrees
  | some e =>
    have hmatches := Expr.matches_eval (State.scene { s with position } table) h.sound (hfits e rfl)
      (hresolved e rfl) h.frames
    rw [Dynamic.printed]
    generalize heval : e.eval (State.scene { s with position } table) = result at hmatches
    generalize Dynamic.eval d.frames e = dynamic at hmatches
    cases hmatches with
    | value v =>
      obtain ⟨hnone, hagrees⟩ := hbegun.writeText hlossless v.text newline
      refine ⟨_, rfl, ?_⟩
      simp only [State.print_of_eval newline heval, hnone, Halt.errors, List.append_nil]
      exact hagrees
    | overflow =>
      refine ⟨_, rfl, ?_⟩
      simp only [State.print_of_halt newline heval]
      exact hbegun.report position

end statement

end Agrees

end LineScript
