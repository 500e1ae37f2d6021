import LineScript.Proofs.LineNumbers
import LineScript.Proofs.Reading.Enclosing
import LineScript.Proofs.Running

/-!
# Running a program that stands elsewhere

A program may stand on other lines and inside one more block. Then it does the same: a
statement of the program with its new line numbers and handles has the same effect in the
enclosed arena, and its errors have the new numbers (`Statement.relocated_run`). What a leaf
does follows from its deed (`Statement.deed_relocated`), and blocks and rows of statements
from their parts.
-/

namespace LineScript

section renumber

variable (g : Nat → Nat)

def Halt.renumber : Halt → Halt
  | .error e => .error (e.renumber g)
  | .fault f => .fault f

end renumber

variable {g : Nat → Nat}

@[simp] theorem Halt.stops_renumber (halt : Option Halt) :
    Halt.stops (halt.map (Halt.renumber g)) = Halt.stops halt := by
  cases halt with
  | none => rfl
  | some halt => cases halt <;> rfl

@[simp] theorem Halt.errors_renumber (halt : Option Halt) :
    Halt.errors (halt.map (Halt.renumber g)) =
      (Halt.errors halt).map (RuntimeError.renumber g) := by
  cases halt with
  | none => rfl
  | some halt => cases halt <;> rfl

/-! ## Expressions -/

section eval

variable {scene other : Scene}

/-- The use of a variable has the same value in both scenes. -/
def Reference.ReadsAlike (g : Nat → Nat) (scene other : Scene) (ref : Reference) : Prop :=
  ∃ value, ref.read scene = .ok value ∧ (ref.renumber g).read other = .ok value

theorem Reference.ReadsAlike.readNumber {ref : Reference} (h : ref.ReadsAlike g scene other) :
    (ref.renumber g).readNumber other = (ref.readNumber scene).mapError (Halt.renumber g) := by
  obtain ⟨value, hread, hread'⟩ := h
  rw [Reference.readNumber, Reference.readNumber, hread, hread']
  cases value <;> rfl

theorem Reference.ReadsAlike.readString {ref : Reference} (h : ref.ReadsAlike g scene other) :
    (ref.renumber g).readString other = (ref.readString scene).mapError (Halt.renumber g) := by
  obtain ⟨value, hread, hread'⟩ := h
  rw [Reference.readString, Reference.readString, hread, hread']
  cases value <;> rfl

section position

variable (hposition : other.position = scene.position.renumber g)

include hposition

theorem Scene.apply_renumber (a : Number) (op : Operator) (b : Number) :
    other.apply a op b = (scene.apply a op b).mapError (Halt.renumber g) := by
  unfold apply inRange overflow
  rw [hposition]
  split <;> rfl

/-- Two operands with new numbers in their errors give a result with new numbers in its
error. -/
theorem Scene.chain_renumber {first second : Except Halt Number} (op : Operator) :
    (do
      let a ← first.mapError (Halt.renumber g)
      let b ← second.mapError (Halt.renumber g)
      other.apply a op b) =
      (do
        let a ← first
        let b ← second
        scene.apply a op b : Except Halt Number).mapError (Halt.renumber g) := by
  cases first with
  | error halt => rfl
  | ok a =>
    cases second with
    | error halt => rfl
    | ok b => exact apply_renumber hposition a op b

mutual

theorem NumExpr.eval_renumber : ∀ e : NumExpr,
    (∀ ref ∈ e.references, ref.ReadsAlike g scene other) →
      (e.renumber g).eval other = (e.eval scene).mapError (Halt.renumber g)
  | .single term, h => by
    simp only [NumExpr.renumber, NumExpr.eval]
    exact Term.eval_renumber term h
  | .chain term op rest, h => by
    have hterm := Term.eval_renumber term fun ref href => h ref (List.mem_append_left _ href)
    have hrest := NumExpr.eval_renumber rest fun ref href => h ref (List.mem_append_right _ href)
    simp only [NumExpr.renumber, NumExpr.eval, hterm, hrest]
    exact Scene.chain_renumber hposition op

theorem Term.eval_renumber : ∀ e : Term,
    (∀ ref ∈ e.references, ref.ReadsAlike g scene other) →
      (e.renumber g).eval other = (e.eval scene).mapError (Halt.renumber g)
  | .single factor, h => by
    simp only [Term.renumber, Term.eval]
    exact Factor.eval_renumber factor h
  | .chain factor op rest, h => by
    have hfactor := Factor.eval_renumber factor fun ref href => h ref (List.mem_append_left _ href)
    have hrest := Term.eval_renumber rest fun ref href => h ref (List.mem_append_right _ href)
    simp only [Term.renumber, Term.eval, hfactor, hrest]
    exact Scene.chain_renumber hposition op

theorem Factor.eval_renumber : ∀ e : Factor,
    (∀ ref ∈ e.references, ref.ReadsAlike g scene other) →
      (e.renumber g).eval other = (e.eval scene).mapError (Halt.renumber g)
  | .literal _, _ => by simp only [Factor.renumber, Factor.eval]; rfl
  | .paren inner, h => by
    simp only [Factor.renumber, Factor.eval]
    exact NumExpr.eval_renumber inner h
  | .negate inner, h => by
    simp only [Factor.renumber, Factor.eval, Factor.eval_renumber inner h]
    cases inner.eval scene with
    | error halt => rfl
    | ok a => exact Scene.apply_renumber hposition a .mul (.integer (-1))
  | .reference ref, h => by
    simp only [Factor.renumber, Factor.eval]
    exact (h ref (List.mem_singleton_self ref)).readNumber

end

end position

theorem StringExpr.eval_renumber (e : StringExpr)
    (h : ∀ ref ∈ e.references, ref.ReadsAlike g scene other) :
    (e.renumber g).eval other = (e.eval scene).mapError (Halt.renumber g) := by
  have operand (o : StringOperand) (h : ∀ ref ∈ o.references, ref.ReadsAlike g scene other) :
      (o.renumber g).eval other = (o.eval scene).mapError (Halt.renumber g) := by
    cases o with
    | literal text => rfl
    | reference ref => exact (h ref (List.mem_singleton_self ref)).readString
  induction e with
  | single o => exact operand o h
  | chain o rest ih =>
    have hfirst := operand o fun ref href => h ref (List.mem_append_left _ href)
    have hrest := ih fun ref href => h ref (List.mem_append_right _ href)
    simp only [StringExpr.renumber, StringExpr.eval, hfirst, hrest]
    cases o.eval scene with
    | error halt => rfl
    | ok a => cases rest.eval scene <;> rfl

theorem Expr.eval_renumber (hposition : other.position = scene.position.renumber g) (e : Expr)
    (h : ∀ ref ∈ e.references, ref.ReadsAlike g scene other) :
    (e.renumber g).eval other = (e.eval scene).mapError (Halt.renumber g) := by
  cases e with
  | number e =>
    simp only [Expr.renumber, Expr.eval, e.eval_renumber hposition h]
    cases e.eval scene <;> rfl
  | string e =>
    simp only [Expr.renumber, Expr.eval, e.eval_renumber h]
    cases e.eval scene <;> rfl

end eval

/-! ## Leaves -/

section deed

variable {a : Arena} {table : TableId} {position : Position} {name : String} {target : SymbolId}
variable {kind : Kind} {e : Expr} {compound : Bool} {statement : Statement}

def Deed.enclosed (d : Deed) : Deed :=
  { d with arena := d.arena.enclosed }

/-- What becomes of the plan of a leaf that stands elsewhere. -/
def Deed.relocated (g : Nat → Nat) (plan : Except Halt Deed) : Except Halt Deed :=
  (plan.map Deed.enclosed).mapError (Halt.renumber g)

/-- A variable that is seen is seen from inside one more block, with the same value. -/
theorem Reference.readsAlike_enclosed {ref : Reference} {position' : Position} (ha : a.Layered)
    (h : a.Sees table ref.name ref.symbol kind) :
    ref.ReadsAlike g ⟨a, table, position⟩ ⟨a.enclosed, table.next, position'⟩ := by
  let scene : Scene := ⟨a, table, position⟩
  let other : Scene := ⟨a.enclosed, table.next, position'⟩
  have hsees : scene.arena.Sees scene.table ref.name ref.symbol kind := h
  have hsees' : other.arena.Sees other.table (ref.renumber g).name (ref.renumber g).symbol kind :=
    h.enclosed
  obtain ⟨r, hr, -, hread⟩ := Reference.read_of_sees hsees ha
  obtain ⟨r', hr', -, hread'⟩ := Reference.read_of_sees hsees' ha.enclosed
  obtain rfl : r = r' := Except.ok.inj (hr.symm.trans hr')
  exact ⟨r.value, hread, hread'⟩

theorem Expr.eval_relocated (g : Nat → Nat) (position : Position) (ha : a.Layered)
    (h : e.Scoped a table) :
    (e.renumber g).eval ⟨a.enclosed, table.next, position.renumber g⟩ =
      (e.eval ⟨a, table, position⟩).mapError (Halt.renumber g) :=
  Expr.eval_renumber rfl e fun ref href => Reference.readsAlike_enclosed ha (h ref href)

/-- A store of the same value in both arenas. -/
theorem State.store_relocated {work work' : Except Halt Value} (hsound : a.Sound)
    (hsees : a.Sees table name target kind) (hwork : work' = work.mapError (Halt.renumber g))
    (hkind : ∀ ⦃value⦄, work = .ok value → value.kind = kind) :
    ((work' >>= store ⟨a.enclosed, (), position.renumber g⟩ table.next name target).map
        fun s => { arena := s.arena, texts := [] }) =
      Deed.relocated g ((work >>= store ⟨a, (), position⟩ table name target).map
        fun s => { arena := s.arena, texts := [] }) := by
  cases work with
  | error halt =>
    rw [hwork]
    rfl
  | ok value =>
    rw [hwork]
    cases hkind rfl
    let s : State Unit := ⟨a, (), position⟩
    let s' : State Unit := ⟨a.enclosed, (), position.renumber g⟩
    have hsees' : s'.arena.Sees table.next name target value.kind := hsees.enclosed
    have hstore : s.store table name target value = _ := store_eq_of_sees hsees hsound
    have hstore' : s'.store table.next name target value = _ :=
      store_eq_of_sees hsees' hsound.enclosed
    change (s'.store table.next name target value).map _ =
      Deed.relocated g ((s.store table name target value).map _)
    rw [hstore, hstore']
    rfl

theorem State.assigned_relocated {old : Value} (ha : a.Layered) (hscoped : e.Scoped a table) :
    assigned ⟨a.enclosed, (), position.renumber g⟩ table.next old compound (e.renumber g) =
      (assigned ⟨a, (), position⟩ table old compound e).mapError (Halt.renumber g) := by
  have hcombine (new : Value) :
      combine ⟨a.enclosed, (), position.renumber g⟩ table.next old new =
        (combine ⟨a, (), position⟩ table old new).mapError (Halt.renumber g) := by
    let s : State Unit := ⟨a, (), position⟩
    let s' : State Unit := ⟨a.enclosed, (), position.renumber g⟩
    cases old with
    | string text => cases new <;> rfl
    | number n =>
      cases new with
      | string text => rfl
      | number m =>
        have happly : (s'.scene table.next).apply n .add m =
            ((s.scene table).apply n .add m).mapError (Halt.renumber g) :=
          Scene.apply_renumber rfl n .add m
        simp only [combine]
        rw [happly]
        cases (s.scene table).apply n .add m <;> rfl
  have heval := Expr.eval_relocated g position ha hscoped
  unfold assigned
  simp only [scene, heval]
  cases e.eval ⟨a, table, position⟩ with
  | error halt => rfl
  | ok new =>
    cases compound with
    | false => rfl
    | true => exact hcombine new

/-- A leaf that stands elsewhere does the same. -/
theorem Statement.deed_relocated (hsound : a.Sound) (hfits : statement.Fits a table) :
    (statement.renumber g).deed a.enclosed table.next =
      Deed.relocated g (statement.deed a table) := by
  cases statement with
  | null => rfl
  | block => rfl
  | declare position name target kind initial =>
    obtain ⟨hbinds, hholds, hinitial⟩ := hfits
    simp only [renumber, deed, State.declare_eq]
    refine State.store_relocated hsound ⟨hholds, table, .self, hbinds⟩ ?_ ?_
    · cases initial with
      | none => rfl
      | some e => exact Expr.eval_relocated g position hsound.layered (hinitial e rfl).2
    · intro value hvalue
      cases initial with
      | none =>
        cases hvalue
        exact Arena.kind_initial kind
      | some e => exact (Expr.kind_of_eval hvalue).trans (hinitial e rfl).1
  | assign position name target compound e =>
    obtain ⟨hsees, hscoped⟩ := hfits
    have hsymbol := hsees.1
    obtain ⟨r, hr, -, hkind⟩ := hsymbol
    let s : State Unit := ⟨a, (), position⟩
    let s' : State Unit := ⟨a.enclosed, (), position.renumber g⟩
    have hassign : s.assign table name target compound e = _ := State.assign_eq hr
    have hassign' : s'.assign table.next name target compound (e.renumber g) = _ :=
      State.assign_eq hr
    simp only [renumber, deed]
    rw [hassign, hassign']
    refine State.store_relocated hsound hsees (State.assigned_relocated hsound.layered hscoped) ?_
    intro value hvalue
    exact State.kind_of_assigned ((hsound.typed hr).trans hkind) hvalue
  | print position newline payload =>
    simp only [renumber, deed]
    cases payload with
    | none => rfl
    | some e =>
      have heval := Expr.eval_relocated g position hsound.layered (hfits e rfl)
      simp only [Option.map_some, Option.elim_some, heval]
      cases e.eval ⟨a, table, position⟩ <;> rfl

end deed

/-! ## Statements -/

/-- The second state is the first one in the enclosed arena. Its position may be any. -/
structure State.Relocated {σ : Type} (s s' : State σ) : Prop where
  arena : s'.arena = s.arena.enclosed
  sink : s'.sink = s.sink

/-- The second effect is the first one in the enclosed arena, and its errors have new
numbers. -/
structure Effect.Relocated {σ : Type} (g : Nat → Nat) (effect other : Effect σ) : Prop where
  state : effect.state.Relocated other.state
  errors : other.errors = effect.errors.map (RuntimeError.renumber g)
  halt : other.halt = effect.halt.map (Halt.renumber g)

section run

variable {σ : Type} {out : Sink σ} {s s' : State σ} {table inner : TableId}
variable {position position' : Position} {statement : Statement} {rest body : List Statement}

theorem Effect.Relocated.noted {effect other : Effect σ} (h : effect.Relocated g other) :
    other.noted = effect.noted.map (RuntimeError.renumber g) := by
  rw [Effect.noted, Effect.noted, h.errors, h.halt, Halt.errors_renumber, List.map_append]

namespace State

theorem write_relocated (out : Sink σ) (text : String) (hsink : s'.sink = s.sink)
    (hposition : s'.position = s.position.renumber g) :
    (s'.write out text).1.sink = (s.write out text).1.sink ∧
      (s'.write out text).2 = (s.write out text).2.map (Halt.renumber g) := by
  unfold write
  split
  case isTrue => exact ⟨hsink, rfl⟩
  case isFalse =>
    simp only [hsink, true_and]
    cases (out.write s.sink text.toUTF8).1 with
    | none => rfl
    | some message =>
      simp only [Option.map_some, failure, hposition]
      rfl

theorem writeAll_relocated (out : Sink σ) (texts : List String) (hsink : s'.sink = s.sink)
    (hposition : s'.position = s.position.renumber g) :
    (s'.writeAll out texts).1.sink = (s.writeAll out texts).1.sink ∧
      (s'.writeAll out texts).2 = (s.writeAll out texts).2.map (Halt.renumber g) := by
  induction texts generalizing s s' with
  | nil => exact ⟨hsink, rfl⟩
  | cons text rest ih =>
    obtain ⟨hwritten, hhalts⟩ := write_relocated out text hsink hposition
    cases hhalt : (s.write out text).2 with
    | none =>
      rw [hhalt, Option.map_none] at hhalts
      rw [writeAll_cons_of_ok rest hhalt, writeAll_cons_of_ok rest hhalts]
      refine ih hwritten ?_
      rw [write_position, write_position, hposition]
    | some halt =>
      rw [hhalt, Option.map_some] at hhalts
      rw [writeAll_cons_of_halt rest hhalt, writeAll_cons_of_halt rest hhalts, hhalt]
      exact ⟨hwritten, hhalts⟩

theorem perform_relocated (out : Sink σ) (plan : Except Halt Deed) (hs : s.Relocated s')
    (hposition : s'.position = s.position.renumber g) :
    (s.perform out plan).1.Relocated (s'.perform out (Deed.relocated g plan)).1 ∧
      (s'.perform out (Deed.relocated g plan)).2 =
        (s.perform out plan).2.map (Halt.renumber g) := by
  cases plan with
  | error halt => exact ⟨hs, rfl⟩
  | ok d =>
    let t : State σ := { s with arena := d.arena }
    let t' : State σ := { s' with arena := d.arena.enclosed }
    obtain ⟨hsink, hhalt⟩ : (t'.writeAll out d.texts).1.sink = (t.writeAll out d.texts).1.sink ∧
        (t'.writeAll out d.texts).2 = (t.writeAll out d.texts).2.map (Halt.renumber g) :=
      writeAll_relocated out d.texts hs.sink hposition
    have harena : (t.writeAll out d.texts).1.arena = d.arena := (writeAll_spec out t d.texts).1
    have harena' : (t'.writeAll out d.texts).1.arena = d.arena.enclosed :=
      (writeAll_spec out t' d.texts).1
    refine ⟨⟨?_, hsink⟩, hhalt⟩
    change (t'.writeAll out d.texts).1.arena = (t.writeAll out d.texts).1.arena.enclosed
    rw [harena, harena']

end State

namespace Statement

theorem relocated_leaf (hleaf : statement.leaf? = some position) (hsound : s.arena.Sound)
    (hfits : statement.Fits s.arena table) (hs : s.Relocated s') :
    (statement.run out table s).Relocated g
      ((statement.renumber g).enclosed.run out table.next s') := by
  have hleaf' : (statement.renumber g).leaf? = some (position.renumber g) := by
    cases statement <;> cases hleaf <;> rfl
  have hsame : (statement.renumber g).enclosed = statement.renumber g := by
    cases statement <;> cases hleaf <;> simp [renumber, enclosed]
  have hdeed : (statement.renumber g).deed s'.arena table.next =
      Deed.relocated g (statement.deed s.arena table) := by
    rw [hs.arena, deed_relocated hsound hfits]
  rw [hsame, run_leaf hleaf, run_leaf hleaf', hdeed]
  have hbegun : State.Relocated { s with position }
      { s' with position := position.renumber g } := ⟨hs.arena, hs.sink⟩
  obtain ⟨hstate, hhalt⟩ := State.perform_relocated out (statement.deed s.arena table) hbegun rfl
  exact ⟨hstate, rfl, hhalt⟩

/-- A block does what its statements do, since the table that they stand in is there. -/
theorem relocated_block {body' : List Statement} {table' : TableId} {t : Table}
    (ht : s.arena.table inner = .ok t) (hs : s.Relocated s')
    (hbody : (runAll out inner { s with position } body).Relocated g
      (runAll out inner.next { s' with position := position' } body')) :
    ((block position inner body).run out table s).Relocated g
      ((block position' inner.next body').run out table' s') := by
  have ht' : s'.arena.table inner.next = .ok t.enclosed := by
    rw [hs.arena]
    exact Arena.table_enclosed ht
  have hthere : (State.arena { s with position }).contains inner = true :=
    Arena.contains_of_table ht
  have hthere' : (State.arena { s' with position := position' }).contains inner.next = true :=
    Arena.contains_of_table ht'
  rw [run_block_eq, run_block_eq, inside_of_contains hthere, inside_of_contains hthere']
  exact ⟨hbody.state, hbody.errors, hbody.halt⟩

theorem relocated_cons {statement' : Statement} {rest' : List Statement} {table' : TableId}
    (hfirst : (statement.run out table s).Relocated g (statement'.run out table' s'))
    (hrest : (runAll out table (statement.run out table s).state rest).Relocated g
      (runAll out table' (statement'.run out table' s').state rest')) :
    (runAll out table s (statement :: rest)).Relocated g
      (runAll out table' s' (statement' :: rest')) := by
  have hstops : Halt.stops (statement'.run out table' s').halt =
      Halt.stops (statement.run out table s).halt := by
    rw [hfirst.halt, Halt.stops_renumber]
  cases hgoes : Halt.stops (statement.run out table s).halt with
  | true =>
    rw [runAll_of_stops hgoes, runAll_of_stops (hstops.trans hgoes)]
    exact hfirst
  | false =>
    rw [runAll_of_goes hgoes, runAll_of_goes (hstops.trans hgoes)]
    refine ⟨hrest.state, ?_, hrest.halt⟩
    simp only [hfirst.noted, hrest.errors, List.map_append]

end Statement

mutual

/-- A statement that stands elsewhere runs alike. -/
theorem Statement.relocated_run (g : Nat → Nat) (out : Sink σ) : ∀ (statement : Statement)
    {s s' : State σ} {table : TableId}, statement.Fits s.arena table → s.arena.Sound →
    s.Relocated s' →
    (statement.run out table s).Relocated g
      ((statement.renumber g).enclosed.run out table.next s')
  | .null, _, _, _, _, _, hs => by
    simp only [Statement.renumber, Statement.enclosed, Statement.run]
    exact ⟨hs, rfl, rfl⟩
  | .declare .., _, _, _, hfits, hsound, hs => Statement.relocated_leaf rfl hsound hfits hs
  | .assign .., _, _, _, hfits, hsound, hs => Statement.relocated_leaf rfl hsound hfits hs
  | .print .., _, _, _, hfits, hsound, hs => Statement.relocated_leaf rfl hsound hfits hs
  | .block position inner body, s, s', _, ⟨⟨_, ht, _⟩, hbody⟩, hsound, hs => by
    let begun : State σ := { s with position }
    let begun' : State σ := { s' with position := position.renumber g }
    have hbegun : begun.Relocated begun' := ⟨hs.arena, hs.sink⟩
    have hfits : Statement.AllFit begun.arena inner body := hbody
    have hall := Statement.relocated_runAll g out body hfits hsound hbegun
    simp only [Statement.renumber, Statement.enclosed]
    exact Statement.relocated_block ht hs hall

theorem Statement.relocated_runAll (g : Nat → Nat) (out : Sink σ) : ∀ (body : List Statement)
    {s s' : State σ} {table : TableId}, Statement.AllFit s.arena table body → s.arena.Sound →
    s.Relocated s' →
    (Statement.runAll out table s body).Relocated g
      (Statement.runAll out table.next s' (Statement.enclosedAll (Statement.renumberAll g body)))
  | [], _, _, _, _, _, hs => by
    simp only [Statement.renumberAll, Statement.enclosedAll, Statement.runAll]
    exact ⟨hs, rfl, rfl⟩
  | statement :: rest, s, s', table, ⟨hfirst, hrest⟩, hsound, hs => by
    have hsafe : (statement.run out table s).Safe out s :=
      Statement.safe_run out statement hfirst hsound
    have hrun := Statement.relocated_run g out statement hfirst hsound hs
    have hlater := Statement.relocated_runAll g out rest (hrest.mono hsafe.leads.shape)
      hsafe.leads.sound hrun.state
    simp only [Statement.renumberAll, Statement.enclosedAll]
    exact Statement.relocated_cons hrun hlater

end

end run

end LineScript
