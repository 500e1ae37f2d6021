import LineScript.Proofs.Interchange
import LineScript.Proofs.Reading.Beginnings

/-!
# Compound assignments

A compound assignment adds to a variable: `x += e` means `x = x + e`. Where the first
is read the second is, and the other way round (`Walk.run_expanded`). A chain of operators
groups to the right, so that `x + e` is the sum of `x` and the value of `e`, which is what
the compound assignment stores (`Statement.Expands.run_eq`). So the one statement can take
the place of the other in a whole program (`Program.ofTokens_expanded`).
-/

namespace LineScript

/-- The sum of a variable and an expression of its kind. -/
def Expr.plus (ref : Reference) : Expr → Expr
  | .number e => .number (.chain (.single (.reference ref)) .add e)
  | .string e => .string (.chain (.reference ref) e)

/-- A compound assignment, and the assignment of the sum that it stands for. -/
inductive Statement.Expands : Statement → Statement → Prop where
  | assign {position place : Position} {name : String} {symbol : SymbolId} {e : Expr} :
      Expands (.assign position name symbol true e)
        (.assign position name symbol false (e.plus ⟨name, symbol, place⟩))

/-! ## Running -/

section running

variable {σ : Type} {out : Sink σ} {s : State σ} {table : TableId} {name : String}
variable {target : SymbolId} {e : Expr} {r : Symbol}

/-- The sum is that of the variable and the value of the whole expression. -/
theorem Expr.eval_plus {ref : Reference} {old : Value} (hread : ref.read (s.scene table) = .ok old)
    (hkind : old.kind = e.kind) :
    (e.plus ref).eval (s.scene table) = e.eval (s.scene table) >>= s.combine table old := by
  cases e with
  | number e =>
    cases old with
    | string text => cases hkind
    | number n =>
      have hfirst : ref.readNumber (s.scene table) = .ok n := by
        rw [Reference.readNumber, hread]
        rfl
      simp only [plus, eval, NumExpr.eval, Term.eval, Factor.eval, hfirst]
      cases e.eval (s.scene table) with
      | error halt => rfl
      | ok m => rfl
  | string e =>
    cases old with
    | number n => cases hkind
    | string text =>
      have hfirst : ref.readString (s.scene table) = .ok text := by
        rw [Reference.readString, hread]
        rfl
      simp only [plus, eval, StringExpr.eval, StringOperand.eval, hfirst]
      cases e.eval (s.scene table) with
      | error halt => rfl
      | ok later => rfl

/-- A compound assignment stores the value of the sum. -/
theorem State.assign_plus (hsees : s.arena.Sees table name target e.kind)
    (hsound : s.arena.Sound) (place : Position) :
    s.assign table name target true e =
      s.assign table name target false (e.plus ⟨name, target, place⟩) := by
  let ref : Reference := ⟨name, target, place⟩
  have hsees' : (s.scene table).arena.Sees (s.scene table).table ref.name ref.symbol e.kind := hsees
  obtain ⟨r, hr, hkind, hread⟩ := Reference.read_of_sees hsees' hsound.layered
  have heval := Expr.eval_plus hread ((hsound.typed hr).trans hkind)
  have hr' : s.arena.symbol target = .ok r := hr
  have hcompound : s.assigned table r.value true e =
      e.eval (s.scene table) >>= s.combine table r.value := by
    unfold assigned
    cases e.eval (s.scene table) <;> rfl
  have hplain (sum : Expr) : s.assigned table r.value false sum = sum.eval (s.scene table) := by
    unfold assigned
    cases sum.eval (s.scene table) <;> rfl
  rw [assign_eq hr', assign_eq hr', hcompound, hplain, heval]

/-- Where it fits, a compound assignment cannot be told from what it stands for. -/
theorem Statement.Expands.run_eq {statement expanded : Statement} (h : Expands statement expanded)
    (hfits : statement.Fits s.arena table) (hsound : s.arena.Sound) :
    statement.run out table s = expanded.run out table s := by
  cases h with
  | @assign position place name symbol e =>
    have hassign := State.assign_plus (s := { s with position }) hfits.1 hsound place
    simp only [run_assign, begin, hassign]

/-- A compound assignment can stand at a mark in the place of what it stands for. -/
theorem Statement.Expands.interchangeable {statement expanded : Statement}
    (h : Expands statement expanded) (n : Nat) :
    Sketch.Interchangeable out (Sketch.instead n [statement]) (Sketch.instead n [expanded]) := by
  intro m s table hfit hsound
  by_cases hm : m = n
  · subst hm
    rw [Sketch.instead_self] at hfit ⊢
    rw [Sketch.instead_self]
    simp only [runAll, h.run_eq hfit.1 hsound]
  · rw [Sketch.instead_of_ne hm, Sketch.instead_of_ne hm]

end running

/-! ## Reading -/

section reading

variable {names : String → Option Arena.Binding} {stop : Position} {token sign : Token}
variable {tokens later rest left : List Token}

theorem Context.kindOf?_of_reference {ctx : Context} {kind : Kind} {ref : Reference}
    (h : token.kind = .identifier) (href : ctx.reference kind token = .ok ref) :
    ctx.kindOf? token = .ok (some kind) := by
  unfold Context.reference at href
  cases hname : ctx.resolve? token.literal with
  | none => simp [hname] at href
  | some binding =>
    by_cases hkind : binding.kind = kind
    · simp [Context.kindOf?, h, hname, hkind]
    · simp [hname, hkind] at href

/-- The variable that a token names. -/
theorem Context.reference_of_resolve? {ctx : Context} {binding : Arena.Binding}
    (h : ctx.resolve? token.literal = some binding) :
    ctx.reference binding.kind token = .ok ⟨token.literal, binding.symbol, token.position⟩ := by
  simp [Context.reference, h]

theorem Factor.kindOf?_of_gives {factor : Factor}
    (h : (Factor.reader names stop tokens).Gives (.ok factor) left) :
    Context.kindOf? ⟨names, stop⟩ (Token.frontOf stop tokens) = .ok (some .number) := by
  cases hbegins : begins (Token.frontOf stop tokens).kind with
  | false => cases (h.unique (reader_of_other hbegins)).1
  | true =>
    unfold begins at hbegins
    split at hbegins
    case h_5 hkind =>
      cases tokens with
      | nil => cases hkind
      | cons token rest =>
        cases href : Context.reference ⟨names, stop⟩ .number token with
        | error e => cases (h.unique (reader_of_reference_error hkind href)).1
        | ok ref => exact Context.kindOf?_of_reference hkind href
    case h_6 => cases hbegins
    all_goals
      rename_i hkind
      simp only [Context.kindOf?, hkind]

theorem StringOperand.kindOf?_of_gives {operand : StringOperand}
    (h : (StringOperand.reader names stop tokens).Gives (.ok operand) left) :
    Context.kindOf? ⟨names, stop⟩ (Token.frontOf stop tokens) = .ok (some .string) := by
  obtain ⟨token, rfl, hread⟩ := reader_gives_ok_iff.mp h
  rw [Token.frontOf_cons]
  unfold StringOperand.read at hread
  split at hread
  case h_1 hkind => simp only [Context.kindOf?, hkind]
  case h_2 hkind =>
    cases href : Context.reference ⟨names, stop⟩ .string token with
    | error e =>
      rw [href] at hread
      cases hread
    | ok ref => exact Context.kindOf?_of_reference hkind href
  case h_3 => cases hread

namespace Reader.Chains

variable {α β : Type} {part : Reader α} {whole : Reader β} {op? : TokenKind → Option Operator}
variable {single : α → β} {chain : α → Operator → β → β} {tree : β} {first : α} {op : Operator}
variable (h : Chains part op? single chain whole)

include h

/-- The first part of a chain that was read was read as well. -/
theorem part_of_gives (hgives : (whole stop tokens).Gives (.ok tree) left) :
    ∃ first rest, (part stop tokens).Gives (.ok first) rest := by
  cases hpart : (part stop tokens).outcome with
  | ok first => exact ⟨first, _, hpart, rfl⟩
  | error e => cases (hgives.unique (h.failed ⟨hpart, rfl⟩)).1

/-- Behind an operator the rest of the chain is read like a chain of its own. -/
theorem gives_chain_iff (hpart : (part stop tokens).Gives (.ok first) (sign :: later))
    (hop : op? sign.kind = some op) :
    (whole stop tokens).Gives (.ok tree) left ↔
      ∃ rest, tree = chain first op rest ∧ (whole stop later).Gives (.ok rest) left := by
  constructor
  · intro hgives
    exact hgives.of_map (h.goesOn hpart hop ⟨rfl, rfl⟩)
  · rintro ⟨rest, rfl, hrest⟩
    exact h.goesOn hpart hop hrest

end Reader.Chains

namespace Expr

variable {kind : Kind} {e : Expr}

theorem reader_gives_number_iff :
    (reader names .number stop tokens).Gives (.ok e) left ↔
      ∃ inner, e = .number inner ∧ (NumExpr.reader names stop tokens).Gives (.ok inner) left := by
  constructor
  · intro h
    exact h.of_map (reader_of_number (kindOf?_of_gives h).1 ⟨rfl, rfl⟩)
  · rintro ⟨inner, rfl, h⟩
    obtain ⟨term, _, hterm⟩ := (NumExpr.chains_reader names).part_of_gives h
    obtain ⟨factor, _, hfactor⟩ := (Term.chains_reader names).part_of_gives hterm
    exact reader_of_number (Factor.kindOf?_of_gives hfactor) h

theorem reader_gives_string_iff :
    (reader names .string stop tokens).Gives (.ok e) left ↔
      ∃ inner, e = .string inner ∧
        (StringExpr.reader names stop tokens).Gives (.ok inner) left := by
  constructor
  · intro h
    exact h.of_map (reader_of_string (kindOf?_of_gives h).1 ⟨rfl, rfl⟩)
  · rintro ⟨inner, rfl, h⟩
    obtain ⟨operand, _, hoperand⟩ := (StringExpr.chains_reader names).part_of_gives h
    exact reader_of_string (StringOperand.kindOf?_of_gives hoperand) h

/-- Behind a variable and a plus sign an expression of the variable's kind is read as it is
without them. -/
theorem reader_gives_plus_iff {binding : Arena.Binding} (htoken : token.kind = .identifier)
    (hname : names token.literal = some binding) (hsign : sign.kind = .plus) :
    (reader names binding.kind stop (token :: sign :: tokens)).Gives (.ok e) left ↔
      ∃ inner, e = inner.plus ⟨token.literal, binding.symbol, token.position⟩ ∧
        (reader names binding.kind stop tokens).Gives (.ok inner) left := by
  have href : Context.reference ⟨names, stop⟩ binding.kind token =
      .ok ⟨token.literal, binding.symbol, token.position⟩ := Context.reference_of_resolve? hname
  obtain ⟨symbol, kind⟩ := binding
  cases kind with
  | number =>
    have hfactor : (Factor.reader names stop (token :: sign :: tokens)).Gives _ _ :=
      Factor.reader_of_reference htoken href
    have hterm := (Term.chains_reader names).ended hfactor (by rw [Token.frontOf_cons, hsign]; rfl)
    have hop : Operator.sum? sign.kind = some .add := by rw [hsign]; rfl
    constructor
    · intro h
      obtain ⟨sum, rfl, hsum⟩ := reader_gives_number_iff.mp h
      obtain ⟨rest, rfl, hrest⟩ := ((NumExpr.chains_reader names).gives_chain_iff hterm hop).mp hsum
      exact ⟨.number rest, rfl, reader_gives_number_iff.mpr ⟨rest, rfl, hrest⟩⟩
    · rintro ⟨inner, rfl, h⟩
      obtain ⟨rest, rfl, hrest⟩ := reader_gives_number_iff.mp h
      have hsum := ((NumExpr.chains_reader names).gives_chain_iff hterm hop).mpr ⟨rest, rfl, hrest⟩
      exact reader_gives_number_iff.mpr ⟨_, rfl, hsum⟩
  | string =>
    have hread : StringOperand.read ⟨names, stop⟩ token =
        .ok (.reference ⟨token.literal, symbol, token.position⟩) := by
      simp only [StringOperand.read, htoken, href]
      rfl
    have hoperand : (StringOperand.reader names stop (token :: sign :: tokens)).Gives _ _ :=
      StringOperand.reader_gives_ok_iff.mpr ⟨token, rfl, hread⟩
    have hop : Operator.join? sign.kind = some .add := by rw [hsign]; rfl
    constructor
    · intro h
      obtain ⟨sum, rfl, hsum⟩ := reader_gives_string_iff.mp h
      obtain ⟨rest, rfl, hrest⟩ :=
        ((StringExpr.chains_reader names).gives_chain_iff hoperand hop).mp hsum
      exact ⟨.string rest, rfl, reader_gives_string_iff.mpr ⟨rest, rfl, hrest⟩⟩
    · rintro ⟨inner, rfl, h⟩
      obtain ⟨rest, rfl, hrest⟩ := reader_gives_string_iff.mp h
      have hsum :=
        ((StringExpr.chains_reader names).gives_chain_iff hoperand hop).mpr ⟨rest, rfl, hrest⟩
      exact reader_gives_string_iff.mpr ⟨_, rfl, hsum⟩

end Expr

theorem Statement.assignReader_gives_iff {target op : Token} {compound : Bool}
    {statement : Statement} (hop : compound? op.kind = some compound) :
    (assignReader names target stop (op :: tokens)).Gives (.ok statement) left ↔
      ∃ binding e, names target.literal = some binding ∧
        statement = .assign target.position target.literal binding.symbol compound e ∧
        (Expr.reader names binding.kind stop tokens).Gives (.ok e) left := by
  constructor
  · intro h
    cases htarget : names target.literal with
    | none =>
      have hfails := h.outcome_eq
      simp only [assignReader, readAssign, htarget] at hfails
      cases hfails
    | some binding =>
      obtain ⟨e, rfl, he⟩ := h.of_map (assignReader_of_value htarget hop ⟨rfl, rfl⟩)
      exact ⟨binding, e, rfl, rfl, he⟩
  · rintro ⟨binding, e, htarget, rfl, he⟩
    exact assignReader_of_value htarget hop he

end reading

/-- The tokens `x` and `+=`, and the tokens `=`, `x` and `+` that stand for the second one. -/
structure Token.Expansion (x op equals copy plus : Token) : Prop where
  isName : x.kind = .identifier
  isCompound : op.kind = .plusEquals
  isEquals : equals.kind = .equals
  isCopy : copy.kind = .identifier ∧ copy.literal = x.literal
  isPlus : plus.kind = .plus

namespace Walk

variable {w : Walk} {stop stop' : Position} {x op equals copy plus : Token}
variable {tokens left next : List Token} {binding : Arena.Binding} {e : Expr} {compound : Bool}

section assign

variable (hmode : w.mode = .reading) (hx : x.kind = .identifier)
variable (hop : Statement.compound? op.kind = some compound)

include hx in
theorem readUnfinished_of_assign (w : Walk) (stop : Position) (tokens : List Token) :
    Statement.readUnfinished (w.site stop) w.arena x tokens =
      .plain w.arena
        (Statement.assignReader (w.arena.resolve? w.block.table) x stop tokens) := by
  simp only [Statement.readUnfinished, hx]
  rfl

include hmode hx hop

theorem step_of_assign (hname : w.arena.resolve? w.block.table x.literal = some binding)
    (he : (Expr.reader (w.arena.resolve? w.block.table) binding.kind stop tokens).Gives (.ok e) left)
    (ends : Ends left next) :
    w.step stop (x :: op :: tokens) =
      some (w.mended [.assign x.position x.literal binding.symbol compound e] w.arena, next) := by
  have hleaf : x.StartsLeaf := by simp [Token.StartsLeaf, hx]
  have hassign := (Statement.assignReader_gives_iff hop).mpr ⟨binding, e, hname, rfl, he⟩
  have hgives : (Statement.readUnfinished (w.site stop) w.arena x (op :: tokens)).Gives
      (.ok (.assign x.position x.literal binding.symbol compound e)) left := by
    rw [readUnfinished_of_assign hx]
    exact ⟨hassign.outcome_eq, hassign.rest_eq⟩
  have harena : (Statement.readUnfinished (w.site stop) w.arena x (op :: tokens)).arena =
      w.arena := by
    rw [readUnfinished_of_assign hx]
    rfl
  obtain ⟨hread, harena⟩ := Statement.read_gives hleaf (Statement.finish_of_ends hgives ends) harena
  rw [step_of_startsLeaf hmode hleaf, take_of_ok hread.outcome_eq, harena, hread.rest_eq]
  rfl

/-- An assignment in which no error is found has a target and a value. -/
theorem exists_assign_of_noErrors (hnone : (w.run stop (x :: op :: tokens)).errors = w.errors) :
    ∃ binding e left next, w.arena.resolve? w.block.table x.literal = some binding ∧
      (Expr.reader (w.arena.resolve? w.block.table) binding.kind stop tokens).Gives (.ok e) left ∧
        Ends left next := by
  have hleaf : x.StartsLeaf := by simp [Token.StartsLeaf, hx]
  have hstep : w.step stop (x :: op :: tokens) = _ := step_of_startsLeaf hmode hleaf
  cases hread : (Statement.read (w.site stop) w.arena x (op :: tokens)).outcome with
  | error error =>
    have hfront := errors_prefix_run stop (w.take stop x (op :: tokens)).1
      (w.take stop x (op :: tokens)).2
    rw [← run_of_step hstep, hnone, take_of_error hread, giveUp_errors] at hfront
    have hlength := hfront.length_le
    rw [List.length_append, List.length_singleton] at hlength
    exact absurd hlength (Nat.not_succ_le_self _)
  | ok statement =>
    rw [Statement.read_eq_readUnfinished hleaf] at hread
    obtain ⟨hout, ends⟩ := StatementReading.finish_eq_ok_iff.mp ⟨hread, rfl⟩
    rw [readUnfinished_of_assign hx] at hout ends
    obtain ⟨binding, e, hname, -, he⟩ := (Statement.assignReader_gives_iff hop).mp ⟨hout, rfl⟩
    exact ⟨binding, e, _, _, hname, he, ends⟩

end assign

/-- If no error is found in one of the two statements, both are read and the same tokens
are left. -/
theorem run_expanded (h : Token.Expansion x op equals copy plus) (hmode : w.mode = .reading)
    (hstop : tokens ≠ [] → stop' = stop)
    (hnone : (w.run stop (x :: op :: tokens)).errors = w.errors ∨
      (w.run stop' (x :: equals :: copy :: plus :: tokens)).errors = w.errors) :
    ∃ statement expanded next, Statement.Expands statement expanded ∧
      w.run stop (x :: op :: tokens) = (w.mended [statement] w.arena).run stop next ∧
        w.run stop' (x :: equals :: copy :: plus :: tokens) =
          (w.mended [expanded] w.arena).run stop next := by
  have hcompound : Statement.compound? op.kind = some true := by rw [h.isCompound]; rfl
  have hplain : Statement.compound? equals.kind = some false := by rw [h.isEquals]; rfl
  have hcopy {binding : Arena.Binding}
      (hname : w.arena.resolve? w.block.table x.literal = some binding) :
      w.arena.resolve? w.block.table copy.literal = some binding := by rw [h.isCopy.2, hname]
  have hread : ∃ stop binding e left next, w.arena.resolve? w.block.table x.literal = some binding ∧
      (Expr.reader (w.arena.resolve? w.block.table) binding.kind stop tokens).Gives (.ok e) left ∧
        Ends left next := by
    obtain hnone | hnone := hnone
    · exact ⟨stop, exists_assign_of_noErrors hmode h.isName hcompound hnone⟩
    · obtain ⟨binding, sum, left, next, hname, hsum, ends⟩ :=
        exists_assign_of_noErrors hmode h.isName hplain hnone
      obtain ⟨e, -, he⟩ :=
        (Expr.reader_gives_plus_iff h.isCopy.1 (hcopy hname) h.isPlus).mp hsum
      exact ⟨stop', binding, e, left, next, hname, he, ends⟩
  obtain ⟨_, binding, e, left, next, hname, he, ends⟩ := hread
  -- There is no expression at the end of input.
  have htokens : tokens ≠ [] := by
    rintro rfl
    cases (Expr.kindOf?_of_gives he).2
  obtain rfl := hstop htokens
  obtain ⟨taken, rfl, hbefore⟩ := Expr.settles _ _ _ _ he
  have hvalue := hbefore.gives stop' left (ends.endsBefore stop')
  have hsum := (Expr.reader_gives_plus_iff h.isCopy.1 (hcopy hname) h.isPlus).mpr ⟨e, rfl, hvalue⟩
  rw [h.isCopy.2] at hsum
  have hstep := step_of_assign hmode h.isName hcompound hname hvalue ends
  have hstep' := step_of_assign hmode h.isName hplain hname hsum ends
  exact ⟨_, _, next, .assign, run_of_step hstep, run_of_step hstep'⟩

/-- Walks that have read different statements at one place differ in that place only. -/
theorem exists_sketch_of_mended (h : w.Marked) (b : Arena) (here there : List Statement)
    (stop : Position) (tokens : List Token) :
    let u := (w.mended here b).run stop tokens
    let v := (w.mended there b).run stop tokens
    u.arena = v.arena ∧ u.errors = v.errors ∧ ∃ sketch : OpenBlock,
      u.block.fill Sketch.nulls = sketch.fill (Sketch.instead w.errors.length here) ∧
        v.block.fill Sketch.nulls = sketch.fill (Sketch.instead w.errors.length there) := by
  -- Both are alike to a walk in which a statement failed at that place.
  let e := Recovery.unclosed stop
  have halike (statements : List Statement) :
      Alike (Sketch.instead w.errors.length statements) (w.errors ++ [e]) w.errors
        ((fail e { w with arena := b }).run stop tokens) ((w.mended statements b).run stop tokens) :=
    (alike_fail h e).run (later_instead e) rfl stop tokens
  obtain ⟨hblock, -, harena, later, herrors, hhere⟩ := halike here
  obtain ⟨hblock', -, harena', later', herrors', hthere⟩ := halike there
  have hlater : later = later' := List.append_cancel_left (herrors.symm.trans herrors')
  refine ⟨harena.symm.trans harena', ?_, _, hblock.symm, hblock'.symm⟩
  rw [hhere, hthere, hlater]

/-- The two walks end in the same place, or they differ in one statement, which is expanded
in the second one. -/
theorem run_eq_or_expanded {front : List Token} (h : Token.Expansion x op equals copy plus)
    (hfront : Token.StatementMayFollow front) (hstop : tokens ≠ [] → stop' = stop) :
    let u := start.run stop (front ++ x :: op :: tokens)
    let v := start.run stop' (front ++ x :: equals :: copy :: plus :: tokens)
    u.errors = [] ∨ v.errors = [] → u = v ∨
      u.arena = v.arena ∧ u.errors = v.errors ∧ ∃ sketch statement expanded,
        Statement.Expands statement expanded ∧
          u.block.fill Sketch.nulls = OpenBlock.fill (Sketch.instead 0 [statement]) sketch ∧
            v.block.fill Sketch.nulls = OpenBlock.fill (Sketch.instead 0 [expanded]) sketch := by
  intro u v hnone
  have hplace : (∃ w, start.Reads front w) ∨ ∃ w, ∀ stop more, start.run stop (front ++ more) = w := by
    obtain hnone | hnone := hnone
    · exact reads_or_stops rfl .start hfront hnone
    · exact reads_or_stops rfl .start hfront hnone
  obtain ⟨w, hw⟩ | ⟨w, hw⟩ := hplace
  · have hu : u = w.run stop (x :: op :: tokens) := hw.passes _ _
    have hv : v = w.run stop' (x :: equals :: copy :: plus :: tokens) := hw.passes _ _
    have hclean : w.errors = [] := hw.errors
    rw [hu, hv, ← hclean] at hnone
    obtain ⟨statement, expanded, next, hexpands, hrun, hrun'⟩ :=
      run_expanded h hw.mode hstop hnone
    obtain ⟨harena, herrors, sketch, hhere, hthere⟩ :=
      exists_sketch_of_mended hw.marked w.arena [statement] [expanded] stop next
    rw [hclean] at hhere hthere
    rw [hu, hv, hrun, hrun']
    exact .inr ⟨harena, herrors, sketch, statement, expanded, hexpands, hhere, hthere⟩
  · exact .inl ((hw _ _).trans (hw _ _).symm)

end Walk

/-! ## Programs -/

/-- Where a stream ends is seen from its last tokens. -/
theorem Cursor.exists_ofTokens_append {back : List Token} (h : back ≠ []) :
    ∃ tokens closing, ∀ front, ofTokens (front ++ back) = ⟨front ++ tokens, closing, 0⟩ := by
  obtain rfl | ⟨init, last, rfl⟩ := List.eq_nil_or_concat back
  · exact absurd rfl h
  rw [List.concat_eq_append]
  by_cases hlast : last.kind = .endOfInput
  · refine ⟨init, last, fun front => ?_⟩
    rw [← List.append_assoc, ofTokens_concat hlast]
  · refine ⟨init ++ [last], .endAt last.position, fun front => ?_⟩
    simp [ofTokens, hlast]

namespace Program

variable {front tokens back : List Token} {x op equals copy plus : Token} {cursor cursor' : Cursor}

/-- If one of two programs was read without an error, and they differ in an assignment that
is expanded in the second one, then both were, and they do the same. -/
theorem execute_expanded (hfront : Token.StatementMayFollow front)
    (h : Token.Expansion x op equals copy plus)
    (hahead : cursor.ahead = front ++ x :: op :: tokens)
    (hahead' : cursor'.ahead = front ++ x :: equals :: copy :: plus :: tokens)
    (hclosing : tokens ≠ [] → cursor'.closing = cursor.closing) :
    let p := ofTokens cursor
    let q := ofTokens cursor'
    p.2.1 = [] ∨ q.2.1 = [] → q.2.1 = p.2.1 ∧
      ∀ {σ : Type} (out : Sink σ) (executor : Executor) (sink : σ),
        let run := executor.execute out p.1 sink
        let run' := executor.execute out q.1 sink
        run'.sink = run.sink ∧ run'.executor = run.executor ∧
          run'.program.arena = run.program.arena := by
  intro p q hnone
  have hsound : p.1.Sound := (wellFormed_ofTokens cursor).sound
  obtain ⟨hp, herrors⟩ := Walk.run_start cursor
  obtain ⟨hq, herrors'⟩ := Walk.run_start cursor'
  rw [hahead] at hp herrors
  rw [hahead'] at hq herrors'
  have hstop : tokens ≠ [] → cursor'.closing.position = cursor.closing.position :=
    fun htokens => congrArg Token.position (hclosing htokens)
  rw [herrors, herrors'] at hnone ⊢
  obtain hsame | ⟨harena, hsame, sketch, statement, expanded, hexpands, hhere, hthere⟩ :=
    Walk.run_eq_or_expanded h hfront hstop hnone
  · refine ⟨by rw [hsame], fun out executor sink => ?_⟩
    have heq : q.1 = p.1 := hq.trans (by rw [← hsame]; exact hp.symm)
    rw [heq]
    exact ⟨rfl, rfl, rfl⟩
  · have hroot : p.1.root = _ := (congrArg Program.root hp).trans hhere
    have hroot' : q.1.root = _ := (congrArg Program.root hq).trans hthere
    have harena' : q.1.arena = p.1.arena :=
      (congrArg Program.arena hq).trans (harena.symm.trans (congrArg Program.arena hp).symm)
    refine ⟨hsame.symm, fun out executor sink => ?_⟩
    exact Executor.execute_congr (hexpands.interchangeable 0) hsound harena'
      hroot hroot' executor sink

/-- In place of a compound assignment, the assignment of the sum that it stands for is read
without an error if and only if the compound assignment is. Then both programs do the same,
whatever sink they write to: they write the same, find the same errors and leave the same
values. -/
theorem ofTokens_expanded (hfront : Token.StatementMayFollow front)
    (h : Token.Expansion x op equals copy plus) :
    let p := ofTokens (.ofTokens (front ++ x :: op :: back))
    let q := ofTokens (.ofTokens (front ++ x :: equals :: copy :: plus :: back))
    (p.2.1 = [] ↔ q.2.1 = []) ∧
      (p.2.1 = [] → ∀ {σ : Type} (out : Sink σ) (executor : Executor) (sink : σ),
        let run := executor.execute out p.1 sink
        let run' := executor.execute out q.1 sink
        run'.sink = run.sink ∧ run'.executor = run.executor ∧
          run'.program.arena = run.program.arena) := by
  intro p q
  obtain ⟨tokens, closing, closing', hclosing, hcursor, hcursor'⟩ : ∃ tokens closing closing',
      (tokens ≠ [] → closing' = closing) ∧
        Cursor.ofTokens (front ++ x :: op :: back) = ⟨front ++ x :: op :: tokens, closing, 0⟩ ∧
        Cursor.ofTokens (front ++ x :: equals :: copy :: plus :: back) =
          ⟨front ++ x :: equals :: copy :: plus :: tokens, closing', 0⟩ := by
    by_cases hback : back = []
    · subst hback
      refine ⟨[], .endAt op.position, .endAt plus.position, by simp, ?_, ?_⟩
      · simp [Cursor.ofTokens, h.isCompound]
      · simp [Cursor.ofTokens, h.isPlus]
    · obtain ⟨tokens, closing, hofTokens⟩ := Cursor.exists_ofTokens_append hback
      refine ⟨tokens, closing, closing, fun _ => rfl, ?_, ?_⟩
      · simpa using hofTokens (front ++ [x, op])
      · simpa using hofTokens (front ++ [x, equals, copy, plus])
  have hahead : (Cursor.ofTokens (front ++ x :: op :: back)).ahead =
      front ++ x :: op :: tokens := by rw [hcursor]; rfl
  have hahead' : (Cursor.ofTokens (front ++ x :: equals :: copy :: plus :: back)).ahead =
      front ++ x :: equals :: copy :: plus :: tokens := by rw [hcursor']; rfl
  have hexecute := execute_expanded hfront h hahead hahead'
    (by rw [hcursor, hcursor']; exact hclosing)
  refine ⟨⟨fun hnone => ?_, fun hnone => ?_⟩, fun hnone => (hexecute (.inl hnone)).2⟩
  · exact (hexecute (.inl hnone)).1.trans hnone
  · exact (hexecute (.inr hnone)).1.symm.trans hnone

/-- Both sums are too large, and both programs say so at the beginning of the statement. -/
theorem ofTokens_expanded_overflow :
    let front := (Cursor.ofLines ["var x number = 1"]).1.tokens
    let back := (Cursor.ofLines ["9223372036854775806 + 1 # too large", "print x"]).1.tokens
    let x : Token := ⟨.identifier, "x", ⟨2, 1⟩⟩
    let op : Token := ⟨.plusEquals, "+=", ⟨2, 3⟩⟩
    let equals : Token := ⟨.equals, "=", ⟨2, 3⟩⟩
    let copy : Token := ⟨.identifier, "x", ⟨2, 5⟩⟩
    let plus : Token := ⟨.plus, "+", ⟨2, 7⟩⟩
    let p := ofTokens (.ofTokens (front ++ x :: op :: back))
    let q := ofTokens (.ofTokens (front ++ x :: equals :: copy :: plus :: back))
    let run := Executor.fresh.execute Buffer.sink p.1 Buffer.unlimited
    let run' := Executor.fresh.execute Buffer.sink q.1 Buffer.unlimited
    Token.StatementMayFollow front ∧ Token.Expansion x op equals copy plus ∧
      (p.2.1 = [] ∧ q.2.1 = []) ∧ run.executor.errors = [⟨⟨2, 1⟩, .overflow⟩] ∧
      run'.sink = run.sink ∧ run'.executor = run.executor ∧
        run'.program.arena = run.program.arena := by
  intro front back x op equals copy plus p q run run'
  have hfront : Token.StatementMayFollow front := by
    unfold Token.StatementMayFollow
    decide +kernel
  have hexpansion : Token.Expansion x op equals copy plus := ⟨rfl, rfl, rfl, ⟨rfl, rfl⟩, rfl⟩
  have hp : p.2.1 = [] := by decide +kernel
  have hoverflow : run.executor.errors = [⟨⟨2, 1⟩, .overflow⟩] := by decide +kernel
  obtain ⟨hiff, hexecute⟩ := @ofTokens_expanded front back x op equals copy plus hfront hexpansion
  exact ⟨hfront, hexpansion, ⟨hp, hiff.mp hp⟩, hoverflow, hexecute hp _ _ _⟩

end Program

end LineScript
