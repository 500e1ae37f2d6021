import LineScript.Proofs.Cursors.Expressions
import LineScript.Proofs.Reading.Statements

/-!
# Statements from a cursor

The routines for statements without statements inside them come back and give what their readers
give: the tree or the error, the arena, and the cursor in front of the tokens that are left
(`Parser.takes_leaf`). A token that begins no statement is different. Its reader drops it, and
the routine gives it back, for the search for the end of the line to drop it.
-/

namespace LineScript

/-- The token begins a declaration, an assignment or an output statement. -/
def Token.Begins (first : Token) : Prop :=
  first.kind = .keyword .var ∨ first.kind = .identifier ∨ first.kind = .keyword .print ∨
    first.kind = .keyword .println

@[simp] theorem StatementReading.finish_log {before : List Token} {r : StatementReading before} :
    r.finish.log = r.log := by
  unfold finish
  split
  · split <;> rfl
  · rfl

namespace Parser

variable {p : Parser} {c : Cursor} {ctx : Context} {limit : Nat}
variable {tokens left before : List Token}

/-- The parser with another cursor and arena, and with more errors and events. -/
def after (p : Parser) (c : Cursor) (arena : Arena) (errors : List SyntaxError)
    (log : List Event) : Parser :=
  { p with cursor := c, arena, errors := p.errors ++ errors, log := p.log ++ log }

theorem moved_eq_after (p : Parser) (c : Cursor) : p.moved c = p.after c p.arena [] [] := by
  simp only [moved, after, List.append_nil]

theorem after_after {c d : Cursor} {a b : Arena} {errors errors' : List SyntaxError}
    {log log' : List Event} : (p.after c a errors log).after d b errors' log' =
      p.after d b (errors ++ errors') (log ++ log') := by
  simp only [after, List.append_assoc]

/-- The routine comes back with all that the reading of a statement says. -/
def Takes (routine : Routine Statement) (p : Parser) (r : StatementReading before) : Prop :=
  ∃ c, p.cursor.Reaches c r.rest ∧
    Runs routine.run p r.outcome (p.after c r.arena r.errors r.log)

theorem takes_plain {routine : Routine Statement} {r : Reading Statement before} {arena : Arena}
    (hc : p.cursor.Reaches c r.rest)
    (hruns : Runs routine.run p r.outcome { p with cursor := c, arena }) :
    Takes routine p (.plain arena r) := by
  refine ⟨c, hc, ?_⟩
  simpa only [after, StatementReading.plain, List.append_nil] using hruns

/-- A reading that declares nothing. -/
theorem Reads.takes {routine : Routine Statement} {r : Reading Statement before}
    (h : Reads routine p r) : Takes routine p (.plain p.arena r) := by
  obtain ⟨c, hc, hruns⟩ := h
  exact takes_plain hc hruns

/-! ## Declarations -/

theorem runs_swallow {kind : TokenKind} (h : p.cursor.peek.kind = kind) :
    Runs (swallow kind) p true (p.moved p.cursor.pop.2) := by
  rw [Runs]
  change some ((p.cursor.swallow kind).1, p.moved (p.cursor.swallow kind).2) = _
  rw [Cursor.swallow, if_pos h]

theorem runs_swallow_other {kind : TokenKind} (h : p.cursor.peek.kind ≠ kind) :
    Runs (swallow kind) p false p := by
  rw [Runs]
  change some ((p.cursor.swallow kind).1, p.moved (p.cursor.swallow kind).2) = _
  rw [Cursor.swallow, if_neg h]
  rfl

theorem reads_initial (h : p.Stands ctx tokens) (hlimit : 3 * tokens.length + 3 ≤ limit)
    (kind : Kind) : Reads (initial limit kind) p (Statement.readInitial ctx kind tokens) := by
  unfold Statement.readInitial
  split
  case h_1 =>
    have hstop : p.cursor.peek.kind = .endOfInput := h.kind_peek
    exact .stay h (.andThen (.lift (runs_swallow_other (by simp [hstop]))) (.done _ p))
  case h_2 token rest =>
    obtain rfl := h.peek
    split
    case isTrue hequals =>
      obtain ⟨c, hc, hruns⟩ := reads_expression (h.moved h.pop) (deep_of_cons hlimit) kind
      exact ⟨c, h.pop.trans hc, .andThen (.lift (runs_swallow hequals)) (hruns.map some)⟩
    case isFalse hequals =>
      exact .stay h (.andThen (.lift (runs_swallow_other hequals)) (.done _ p))

theorem Stands.malformed_peek (h : p.Stands ctx tokens) (flaw : DeclarationFlaw) :
    SyntaxError.malformed p.cursor.peek flaw = .malformed (ctx.front tokens) flaw := by
  simp only [SyntaxError.malformed, h.peek_like_front.2]

section declare

variable {q : Parser} {kind : Kind} {id : SymbolId} {first : Except SyntaxError (Option Expr)}

theorem runs_declare_noName (limit : Nat) (position : Position)
    (hname : p.cursor.peek.kind ≠ .identifier) :
    Runs (declare limit position).run p
      (.error (.malformed p.cursor.peek (.noName p.cursor.peek.describe))) p := by
  refine .andThen (.lift (.peek p)) ?_
  rw [if_neg hname]
  exact .fail _ p

theorem runs_declare_noType (limit : Nat) (position : Position)
    (hname : p.cursor.peek.kind = .identifier)
    (htype : Statement.typeWord? p.cursor.pop.2.peek.kind = none) :
    Runs (declare limit position).run p
      (.error (.malformed p.cursor.pop.2.peek
        (.noType p.cursor.peek.literal p.cursor.pop.2.peek.describe)))
      (p.moved p.cursor.pop.2) := by
  refine .andThen (.lift (.peek p)) ?_
  rw [if_pos hname]
  refine .andThen (.lift (.pop p)) (.andThen (.lift (.peek _)) ?_)
  simp only [moved_cursor, htype]
  exact .fail _ _

theorem runs_declare_bound (position : Position) (hname : p.cursor.peek.kind = .identifier)
    (htype : Statement.typeWord? p.cursor.pop.2.peek.kind = some kind)
    (hbound : p.arena.getLocal p.table p.cursor.peek.literal = .ok (some id)) :
    Runs (declare limit position).run p (.error (.redeclared p.cursor.peek))
      (p.moved p.cursor.pop.2.pop.2) := by
  refine .andThen (.lift (.peek p)) ?_
  rw [if_pos hname]
  refine .andThen (.lift (.pop p)) (.andThen (.lift (.peek _)) ?_)
  simp only [moved_cursor, htype]
  refine .andThen (.lift (.pop _)) (.andThen (.state _) ?_)
  simp only [moved, hbound]
  exact .fail _ _

/-- The name is bound behind the first value, whatever becomes of the value. -/
theorem runs_declare_free (position : Position) (hname : p.cursor.peek.kind = .identifier)
    (htype : Statement.typeWord? p.cursor.pop.2.peek.kind = some kind)
    (hfree : ∀ id, p.arena.getLocal p.table p.cursor.peek.literal ≠ .ok (some id))
    (hfirst : Runs (initial limit kind).run (p.moved p.cursor.pop.2.pop.2) first q) :
    let declared := q.arena.declare q.table (.declared p.cursor.peek.literal kind)
    Runs (declare limit position).run p
      (first.map (.declare position p.cursor.peek.literal declared.1 kind))
      { q with arena := declared.2 } := by
  intro declared
  refine .andThen (.lift (.peek p)) ?_
  rw [if_pos hname]
  refine .andThen (.lift (.pop p)) (.andThen (.lift (.peek _)) ?_)
  simp only [moved_cursor, htype]
  refine .andThen (.lift (.pop _)) (.andThen (.state _) ?_)
  split
  case h_1 id hid => exact absurd hid (hfree id)
  case h_2 =>
    refine .andThen (.attempt hfirst) (.andThen (.lift rfl) ?_)
    exact (Runs.settle rfl _).map _

theorem takes_declare (h : p.Stands p.context tokens) (hlimit : 3 * tokens.length + 3 ≤ limit)
    (position : Position) :
    Takes (declare limit position) p (Statement.readDeclare p.site p.arena position tokens) := by
  unfold Statement.readDeclare
  simp only
  split
  case isFalse hname =>
    refine Reads.takes (.stay h ?_)
    have hruns := runs_declare_noName limit position (h.kind_peek ▸ hname)
    rwa [h.malformed_peek, h.peek_like_front.2.2] at hruns
  case isTrue hname =>
    cases tokens with
    | nil => cases hname
    | cons name rest =>
      have hnext := h.moved h.pop
      obtain rfl := h.peek
      split
      case h_1 htype =>
        have hflaw (name : String) : SyntaxError.malformed p.cursor.pop.2.peek
            (.noType name p.cursor.pop.2.peek.describe) =
              .malformed (p.context.front rest) (.noType name (p.context.front rest).describe) := by
          rw [← hnext.peek_like_front.2.2]
          exact hnext.malformed_peek _
        have hruns := runs_declare_noType limit position hname
          ((congrArg Statement.typeWord? hnext.kind_peek).trans htype)
        rw [hflaw] at hruns
        exact Reads.takes ⟨_, h.pop, hruns⟩
      case h_2 kind htype =>
        cases rest with
        | nil => cases htype
        | cons type later =>
          obtain rfl := hnext.peek
          split
          case h_1 id hid =>
            exact Reads.takes ⟨_, h.pop.pop, runs_declare_bound position hname htype hid⟩
          case h_2 hfree =>
            obtain ⟨c, hc, hruns⟩ := reads_initial (hnext.moved hnext.pop)
              (deep_of_cons (deep_of_cons hlimit)) kind
            exact takes_plain (h.pop.pop.trans hc)
              (runs_declare_free position hname htype hfree hruns)

end declare

/-! ## Assignments and output -/

section assign

variable {q : Parser} {target : Token} {binding : Arena.Binding} {compound : Bool}
variable {value : Except SyntaxError Expr}

theorem runs_assign_noOperator (htarget : p.context.resolve? target.literal = some binding)
    (hop : Statement.compound? p.cursor.peek.kind = none) :
    Runs (assign limit target).run p (.error (.expected .assignmentOperator p.cursor.peek)) p := by
  refine .andThen (.state p) ?_
  simp only [htarget]
  refine .andThen (.lift (.peek p)) ?_
  simp only [hop]
  exact .fail _ p

theorem runs_assign_value (htarget : p.context.resolve? target.literal = some binding)
    (hop : Statement.compound? p.cursor.peek.kind = some compound)
    (hvalue : Runs (expression limit binding.kind).run (p.moved p.cursor.pop.2) value q) :
    Runs (assign limit target).run p
      (value.map (.assign target.position target.literal binding.symbol compound)) q := by
  refine .andThen (.state p) ?_
  simp only [htarget]
  refine .andThen (.lift (.peek p)) ?_
  simp only [hop]
  exact .andThen (.lift (.pop p)) (hvalue.map _)

theorem reads_assign (h : p.Stands p.context tokens) (hlimit : 3 * tokens.length + 3 ≤ limit)
    (target : Token) :
    Reads (assign limit target) p (Statement.readAssign p.context target tokens) := by
  unfold Statement.readAssign
  split
  case h_1 htarget =>
    refine .stay h (.andThen (.state p) ?_)
    simp only [htarget]
    exact .fail _ p
  case h_2 binding htarget =>
    split
    case h_1 hop =>
      rw [← h.kind_peek] at hop
      refine .stay h ?_
      rw [← h.expected_peek]
      exact runs_assign_noOperator htarget hop
    case h_2 compound hop =>
      cases tokens with
      | nil => cases hop
      | cons operator rest =>
        obtain rfl := h.peek
        obtain ⟨c, hc, hruns⟩ := reads_expression (h.moved h.pop) (deep_of_cons hlimit) binding.kind
        exact ⟨c, h.pop.trans hc, runs_assign_value htarget hop hruns⟩

end assign

theorem reads_print (h : p.Stands p.context tokens) (hlimit : 3 * tokens.length + 3 ≤ limit)
    (position : Position) (newline : Bool) :
    Reads (print limit position newline) p
      (Statement.readPrint p.context position newline tokens) := by
  have hfront := h.kindOf?_peek
  unfold Statement.readPrint
  simp only
  rw [← h.kind_peek]
  split
  case isTrue hends =>
    refine .stay h (.andThen (.lift (.peek p)) ?_)
    rw [if_pos hends]
    exact .done _ p
  case isFalse hends =>
    split
    case h_1 e he =>
      refine .stay h (.andThen (.lift (.peek p)) ?_)
      rw [if_neg hends]
      exact .andThen (.state p) (Runs.settle (hfront.trans he) p).failed
    case h_2 hnone =>
      refine .stay h (.andThen (.lift (.peek p)) ?_)
      rw [if_neg hends, ← h.expected_peek]
      exact .andThen (.state p) (.andThen (.settle (hfront.trans hnone) p) (.fail _ p))
    case h_3 kind hkind =>
      obtain ⟨c, hc, hruns⟩ := reads_expression h hlimit kind
      refine ⟨c, hc, .andThen (.lift (.peek p)) ?_⟩
      rw [if_neg hends]
      refine .andThen (.state p) (.andThen (.settle (hfront.trans hkind) p) ?_)
      exact hruns.map _

/-! ## The end of a statement -/

theorem runs_finish (h : p.Stands ctx tokens) (ends : Ends tokens left) :
    ∃ c, p.cursor.Reaches c left ∧ Runs finish.run p (.ok ()) (p.moved c) := by
  cases ends with
  | input =>
    have hstop : p.cursor.peek.kind = .endOfInput := h.kind_peek
    refine ⟨_, .stay h.ahead, .andThen (.lift (.peek p)) ?_⟩
    simp only [hstop]
    exact .done _ p
  | line hline =>
    obtain rfl := h.peek
    refine ⟨_, h.pop, .andThen (.lift (.peek p)) ?_⟩
    simp only [hline]
    exact .andThen (.lift (.pop p)) (.done _ _)
  | before hbefore =>
    obtain rfl := h.peek
    refine ⟨_, .stay h.ahead, .andThen (.lift (.peek p)) ?_⟩
    obtain hkind | hkind | hkind := hbefore <;> simp only [hkind] <;> exact .done _ p

theorem runs_finish_failed {found : Token} {rest : List Token} (h : p.Stands ctx (found :: rest))
    (hgoes : Statement.endsBefore found.kind = false) :
    Runs finish.run p (.error (.expected .endOfStatement found)) p := by
  obtain rfl := h.peek
  refine .andThen (.lift (.peek p)) ?_
  split
  case h_5 => exact .fail _ p
  all_goals simp_all [Statement.endsBefore]

theorem takes_ended {routine : Routine Statement} {r : StatementReading before}
    (hclosed : p.cursor.Closed) (h : Takes routine p r) : Takes (ended routine) p r.finish := by
  obtain ⟨c, hc, hruns⟩ := h
  have hthen : (p.after c r.arena r.errors r.log).Stands _ r.rest :=
    ⟨hc.closed hclosed, rfl, hc.ahead⟩
  rw [Takes, StatementReading.finish_arena, StatementReading.finish_errors,
    StatementReading.finish_log]
  cases hout : r.outcome with
  | error e =>
    have hfinish : r.finish.outcome = .error e ∧ r.finish.rest = r.rest := by
      obtain ⟨⟨outcome, rest, hsuffix⟩, arena, errors, log⟩ := r
      cases hout
      exact ⟨rfl, rfl⟩
    rw [hfinish.1, hfinish.2]
    rw [hout] at hruns
    exact ⟨c, hc, hruns.failed⟩
  | ok tree =>
    rw [hout] at hruns
    cases hfinish : r.finish.outcome with
    | ok tree' =>
      obtain ⟨htree, ends⟩ := StatementReading.finish_eq_ok_iff.mp ⟨hfinish, rfl⟩
      cases hout.symm.trans htree
      obtain ⟨d, hd, hend⟩ := runs_finish hthen ends
      exact ⟨d, hc.trans hd, hruns.andThen (hend.andThen (.done _ _))⟩
    | error e =>
      obtain ⟨hrest, he | ⟨found, rest, hfound, hgoes, rfl⟩⟩ :=
        StatementReading.finish_eq_error hfinish
      · cases hout.symm.trans he
      · rw [hfound] at hthen
        refine ⟨c, hrest ▸ hc, hruns.andThen (Runs.failed ?_)⟩
        exact runs_finish_failed hthen hgoes

/-! ## Statements that are no blocks -/

/-- Behind its first token, a statement is taken as it is read. -/
theorem takes_leaf {first : Token} (h : p.Stands p.context tokens)
    (hlimit : 3 * tokens.length + 3 ≤ limit) (hfirst : first.Begins) :
    Takes (leaf limit first) p (Statement.readUnfinished p.site p.arena first tokens) := by
  unfold leaf Statement.readUnfinished
  obtain hkind | hkind | hkind | hkind := hfirst
  · simp only [hkind]
    exact takes_declare h hlimit first.position
  · simp only [hkind]
    exact (reads_assign h hlimit first).takes
  · simp only [hkind]
    exact (reads_print h hlimit first.position false).takes
  · simp only [hkind]
    exact (reads_print h hlimit first.position true).takes

/-- A token that begins no statement is given back. -/
theorem runs_leaf_unexpected {first : Token} (hfirst : ¬ first.Begins) :
    Runs (leaf limit first).run p (.error (.unexpected first))
      (p.moved p.cursor.pushBack) := by
  unfold leaf
  split
  case h_1 hkind => exact absurd (.inl hkind) hfirst
  case h_2 hkind => exact absurd (.inr (.inl hkind)) hfirst
  case h_3 hkind => exact absurd (.inr (.inr (.inl hkind))) hfirst
  case h_4 hkind => exact absurd (.inr (.inr (.inr hkind))) hfirst
  case h_5 => exact .andThen (.lift rfl) (.fail _ _)

end Parser

end LineScript
