import LineScript.Proofs.Cursors.Expressions

/-!
# Deeper limits

A call that comes back does so with the same result if it is given a deeper limit
(`Parser.Grows.runs`). So the limit decides only whether a call comes back, and the result of
a call is a matter of the parser alone (`Parser.Grows.unique`).
-/

namespace LineScript

namespace Parser

variable {α β : Type} {p q r : Parser} {a : α} {b : β} {limit : Nat}

/-- What the first step comes back with, the second one comes back with as well. -/
def Below (s t : Step α) : Prop :=
  ∀ p a q, Runs s p a q → Runs t p a q

namespace Below

theorem refl (s : Step α) : Below s s :=
  fun _ _ _ h => h

theorem never (t : Step α) : Below Parser.never t := by
  intro p a q h
  cases (show (none : Option (α × Parser)) = some (a, q) from h)

theorem bind {s t : Step α} {f g : α → Step β} (h : Below s t) (later : ∀ a, Below (f a) (g a)) :
    Below (s >>= f) (t >>= g) := by
  intro p b r hruns
  have hrun : (s >>= f).run p = (s.run p).bind fun ⟨a, q⟩ => (f a).run q := rfl
  rw [Runs, hrun, Option.bind_eq_some_iff] at hruns
  obtain ⟨⟨a, q⟩, hfirst, hlater⟩ := hruns
  exact .bind (h p a q hfirst) (later a q b r hlater)

/-- A step that never fails. -/
theorem lift {s t : Step α} (h : Below s t) :
    Below (liftM s : Routine α).run (liftM t : Routine α).run := by
  intro p outcome q hruns
  have hrun : (liftM s : Routine α).run.run p =
      (s.run p).bind fun ⟨a, q⟩ => some (.ok a, q) := rfl
  rw [Runs, hrun, Option.bind_eq_some_iff] at hruns
  obtain ⟨⟨a, q⟩, hfirst, hlater⟩ := hruns
  cases hlater
  exact .lift (h p a q hfirst)

theorem unread (t : Routine α) : Below (liftM (Parser.never : Step α) : Routine α).run t.run := by
  intro p a q h
  cases (show (none : Option (Except SyntaxError α × Parser)) = some (a, q) from h)

theorem andThen {s t : Routine α} {f g : α → Routine β} (h : Below s.run t.run)
    (later : ∀ a, Below (f a).run (g a).run) : Below (s >>= f).run (t >>= g).run := by
  refine bind h ?_
  intro outcome
  cases outcome with
  | ok a => exact later a
  | error e => exact refl _

end Below

/-- With a deeper limit, the call comes back with all that it came back with. -/
def Grows (call : Nat → Step α) : Prop :=
  ∀ limit, Below (call limit) (call (limit + 1))

namespace Grows

variable {call : Nat → Step α}

theorem runs (h : Grows call) {deeper : Nat} (hle : limit ≤ deeper)
    (hruns : Runs (call limit) p a q) : Runs (call deeper) p a q := by
  induction hle with
  | refl => exact hruns
  | step _ ih => exact h _ p a q ih

/-- Two calls that come back do so with one result, whatever their limits are. -/
theorem unique (h : Grows call) {limit' : Nat} {a' : α} {q' : Parser}
    (hruns : Runs (call limit) p a q) (hruns' : Runs (call limit') p a' q') :
    a = a' ∧ q = q' :=
  (h.runs (Nat.le_max_left limit limit') hruns).unique
    (h.runs (Nat.le_max_right limit limit') hruns')

end Grows

/-! ## Expressions -/

theorem below_chained {operand operand' : Routine α} {more more' : Routine β}
    {op? : TokenKind → Option Operator} {single : α → β} {chain : α → Operator → β → β}
    (h : Below operand.run operand'.run) (later : Below more.run more'.run) :
    Below (chained operand op? single chain more).run
      (chained operand' op? single chain more').run := by
  refine .andThen h fun tree => .andThen (.refl _) fun token => ?_
  cases op? token.kind with
  | none => exact .refl _
  | some op => exact .andThen later fun _ => .refl _

theorem below_factor (hnum : Below (numExpr limit).run (numExpr (limit + 1)).run)
    (hfactor : Below (factor limit).run (factor (limit + 1)).run) :
    Below (factor (limit + 1)).run (factor (limit + 2)).run := by
  rw [factor.eq_2 limit, factor.eq_2 (limit + 1)]
  refine .andThen (.refl _) fun token => ?_
  split
  case h_3 =>
    refine .andThen (.refl _) fun _ => .andThen (.refl _) fun next => ?_
    split
    · exact .refl _
    · exact .andThen hfactor fun _ => .refl _
  case h_4 => exact .andThen (.refl _) fun _ => .andThen hnum fun _ => .refl _
  all_goals exact .refl _

theorem grows_numeric : Grows (fun limit => (numExpr limit).run) ∧
    Grows (fun limit => (term limit).run) ∧ Grows (fun limit => (factor limit).run) := by
  have hall (limit : Nat) : Below (numExpr limit).run (numExpr (limit + 1)).run ∧
      Below (term limit).run (term (limit + 1)).run ∧
      Below (factor limit).run (factor (limit + 1)).run := by
    induction limit with
    | zero => exact ⟨.unread _, .unread _, .unread _⟩
    | succ limit ih =>
      obtain ⟨hnum, hterm, hfactor⟩ := ih
      refine ⟨?_, ?_, below_factor hnum hfactor⟩
      · rw [numExpr.eq_2 limit, numExpr.eq_2 (limit + 1)]
        exact below_chained hterm hnum
      · rw [term.eq_2 limit, term.eq_2 (limit + 1)]
        exact below_chained hfactor hterm
  exact ⟨fun limit => (hall limit).1, fun limit => (hall limit).2.1, fun limit => (hall limit).2.2⟩

theorem grows_stringExpr : Grows fun limit => (stringExpr limit).run := by
  intro limit
  show Below (stringExpr limit).run (stringExpr (limit + 1)).run
  induction limit with
  | zero => exact .unread _
  | succ limit ih =>
    rw [stringExpr.eq_2 limit, stringExpr.eq_2 (limit + 1)]
    refine .andThen (.refl _) fun _ => .andThen (.refl _) fun _ => .andThen (.refl _) fun _ => ?_
    refine .andThen (.refl _) fun _ => .andThen (.refl _) fun next => ?_
    split
    · exact .andThen ih fun _ => .refl _
    · exact .refl _

theorem grows_expression (kind : Kind) : Grows fun limit => (expression limit kind).run := by
  intro limit
  refine .andThen (.refl _) fun token => .andThen (.refl _) fun p => ?_
  refine .andThen (.refl _) fun found => ?_
  cases found with
  | none => exact .refl _
  | some actual =>
    simp only
    split
    · cases kind with
      | number => exact .andThen (grows_numeric.1 limit) fun _ => .refl _
      | string => exact .andThen (grows_stringExpr limit) fun _ => .refl _
    · exact .refl _

/-! ## Statements without statements inside them -/

theorem grows_initial (kind : Kind) : Grows fun limit => (initial limit kind).run := by
  intro limit
  refine .andThen (.refl _) fun swallowed => ?_
  split
  · exact .andThen (grows_expression kind limit) fun _ => .refl _
  · exact .refl _

theorem grows_declare (position : Position) : Grows fun limit => (declare limit position).run := by
  intro limit
  refine .andThen (.refl _) fun name => ?_
  split
  case isFalse => exact .refl _
  case isTrue =>
    refine .andThen (.refl _) fun _ => .andThen (.refl _) fun type => ?_
    cases Statement.typeWord? type.kind with
    | none => exact .refl _
    | some kind =>
      refine .andThen (.refl _) fun _ => .andThen (.refl _) fun p => ?_
      split
      · exact .refl _
      · exact .andThen (.lift (grows_initial kind limit)) fun _ => .refl _

theorem grows_assign (target : Token) : Grows fun limit => (assign limit target).run := by
  intro limit
  refine .andThen (.refl _) fun p => ?_
  cases p.context.resolve? target.literal with
  | none => exact .refl _
  | some binding =>
    refine .andThen (.refl _) fun operator => ?_
    cases Statement.compound? operator.kind with
    | none => exact .refl _
    | some compound =>
      refine .andThen (.refl _) fun _ => ?_
      exact .andThen (grows_expression binding.kind limit) fun _ => .refl _

theorem grows_print (position : Position) (newline : Bool) :
    Grows fun limit => (print limit position newline).run := by
  intro limit
  refine .andThen (.refl _) fun next => ?_
  split
  · exact .refl _
  · refine .andThen (.refl _) fun p => .andThen (.refl _) fun found => ?_
    cases found with
    | none => exact .refl _
    | some kind => exact .andThen (grows_expression kind limit) fun _ => .refl _

theorem below_ended {s t : Routine Statement} (h : Below s.run t.run) :
    Below (ended s).run (ended t).run :=
  .andThen h fun _ => .refl _

theorem grows_leaf (first : Token) : Grows fun limit => (leaf limit first).run := by
  intro limit
  simp only [leaf]
  split
  case h_1 => exact grows_declare first.position limit
  case h_2 => exact grows_assign first limit
  case h_3 => exact grows_print first.position false limit
  case h_4 => exact grows_print first.position true limit
  case h_5 => exact .refl _

/-! ## Going on after an error -/

theorem grows_resync : Grows resync := by
  intro limit
  induction limit with
  | zero => exact .never _
  | succ limit ih =>
    rw [resync.eq_2 limit, resync.eq_2 (limit + 1)]
    refine .bind (.refl _) fun token => ?_
    split
    case h_1 => exact .refl _
    case h_2 =>
      refine .bind (.refl _) fun p => ?_
      split
      · exact .refl _
      · exact .bind (.refl _) fun _ => ih
    case h_3 => exact .refl _
    case h_4 => exact .bind (.refl _) fun _ => ih

theorem grows_skipBlock (depth : Nat) : Grows (skipBlock · depth) := by
  intro limit
  show Below (skipBlock limit depth) (skipBlock (limit + 1) depth)
  induction limit generalizing depth with
  | zero => exact .never _
  | succ limit ih =>
    rw [skipBlock.eq_2 depth limit, skipBlock.eq_2 depth (limit + 1)]
    refine .bind (.refl _) fun token => ?_
    split
    case h_1 => exact .refl _
    case h_2 => exact ih (depth + 1)
    case h_3 =>
      refine .bind (.refl _) fun p => ?_
      split
      · exact .refl _
      · exact ih (depth - 1)
    case h_4 => exact ih depth

/-! ## Bodies -/

theorem below_statement
    (hblock : ∀ position, Below (block limit position) (block (limit + 1) position)) :
    Below (statement (limit + 1)).run (statement (limit + 2)).run := by
  rw [statement.eq_2 limit, statement.eq_2 (limit + 1)]
  refine .andThen (.refl _) fun first => .andThen (.refl _) fun _ => ?_
  split
  · exact below_ended (.lift (hblock first.position))
  · exact below_ended (grows_leaf first limit)

theorem below_turn (hstatement : Below (statement limit).run (statement (limit + 1)).run) :
    Below (turn (limit + 1)) (turn (limit + 2)) := by
  rw [turn.eq_2 limit, turn.eq_2 (limit + 1)]
  refine .bind hstatement fun outcome => ?_
  cases outcome with
  | ok tree => exact .refl _
  | error e =>
    refine .bind (.refl _) fun _ => .bind (.refl _) fun _ => ?_
    split
    · exact .bind (grows_skipBlock 0 limit) fun _ => .refl _
    · exact .bind (grows_resync limit) fun _ => .refl _

theorem below_body (hturn : Below (turn limit) (turn (limit + 1)))
    (hbody : Below (body limit) (body (limit + 1))) :
    Below (body (limit + 1)) (body (limit + 2)) := by
  rw [body.eq_2 limit, body.eq_2 (limit + 1)]
  refine .bind (.refl _) fun token => ?_
  split
  case h_1 => exact .bind (.refl _) fun _ => hbody
  case h_2 => exact .bind (.refl _) fun _ => hbody
  case h_3 => exact .refl _
  case h_4 =>
    refine .bind (.refl _) fun _ => .bind (.refl _) fun p => ?_
    split
    · exact .refl _
    · exact .bind (.refl _) fun _ => hbody
  case h_5 =>
    refine .bind hturn fun done => ?_
    obtain ⟨tree, goes⟩ := done
    cases goes with
    | true => exact .bind hbody fun _ => .refl _
    | false => exact .refl _

theorem grows_bodies : Grows (fun limit => (statement limit).run) ∧
    (∀ position, Grows (block · position)) ∧ Grows turn ∧ Grows body := by
  have hall (limit : Nat) : Below (statement limit).run (statement (limit + 1)).run ∧
      (∀ position, Below (block limit position) (block (limit + 1) position)) ∧
      Below (turn limit) (turn (limit + 1)) ∧ Below (body limit) (body (limit + 1)) := by
    induction limit with
    | zero => exact ⟨.unread _, fun _ => .never _, .never _, .never _⟩
    | succ limit ih =>
      obtain ⟨hstatement, hblock, hturn, hbody⟩ := ih
      refine ⟨below_statement hblock, ?_, below_turn hstatement, below_body hturn hbody⟩
      intro position
      rw [block.eq_2 position limit, block.eq_2 position (limit + 1)]
      exact .bind (.refl _) fun _ => .bind hbody fun _ => .refl _
  exact ⟨fun limit => (hall limit).1, fun position limit => (hall limit).2.1 position,
    fun limit => (hall limit).2.2.1, fun limit => (hall limit).2.2.2⟩

theorem grows_program : Grows program :=
  fun limit => .bind (grows_bodies.2.2.2 limit) fun _ => .refl _

end Parser

end LineScript
