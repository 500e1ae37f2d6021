import LineScript.Proofs.Cursors.Bodies
import LineScript.Proofs.Cursors.Limits

/-!
# The parser makes progress

The parser comes back from every list of tokens, whatever their kinds and their order, and also
with an end of input among them. No call leaves the cursor in front of where it found it. A turn of
the loop over statements and an expression that is parsed leave it behind at least one token, so
four calls for each token are deep enough (`Parser.progresses`).
-/

namespace LineScript

namespace Cursor

theorem closed_ofTokens (tokens : List Token) : (ofTokens tokens).Closed := by
  unfold ofTokens
  split
  case h_1 => rfl
  case h_2 last _ =>
    split
    case isTrue hlast => exact hlast
    case isFalse => rfl

/-- The cursor `d` is behind at least one token that was ahead of `c`. -/
structure Passes (c d : Cursor) : Prop where
  behind : c.position < d.position
  fewer : d.ahead.length < c.ahead.length

theorem Reaches.passes {c d : Cursor} {left : List Token} (h : c.Reaches d left)
    (hlength : left.length < c.ahead.length) : c.Passes d :=
  ⟨h.lt_of_length_lt hlength, by rwa [h.ahead]⟩

end Cursor

namespace Parser

variable {α : Type} {p : Parser}

/-! ## The calls of a parse -/

/-- The routine parses the expressions that the reader reads. -/
inductive Expresses : {α : Type} → (Nat → Routine α) →
    ((ctx : Context) → (tokens : List Token) → Reading α tokens) → Prop where
  | numExpr : Expresses numExpr NumExpr.read
  | term : Expresses term Term.read
  | factor : Expresses factor Factor.read
  | stringExpr : Expresses stringExpr StringExpr.read
  | expression (kind : Kind) : Expresses (expression · kind) (Expr.read · kind)

/-- These are the calls of the routines of the parser, with their limit left open. -/
inductive IsCall : {α : Type} → (Nat → Step α) → Prop where
  | expression {α : Type} {routine : Nat → Routine α}
      {read : (ctx : Context) → (tokens : List Token) → Reading α tokens}
      (h : Expresses routine read) : IsCall fun limit => (routine limit).run
  | initial (kind : Kind) : IsCall fun limit => (initial limit kind).run
  | declare (position : Position) : IsCall fun limit => (declare limit position).run
  | assign (target : Token) : IsCall fun limit => (assign limit target).run
  | print (position : Position) (newline : Bool) :
      IsCall fun limit => (print limit position newline).run
  | finish : IsCall fun _ => finish.run
  | statement : IsCall fun limit => (statement limit).run
  | resync : IsCall resync
  | skipBlock (depth : Nat) : IsCall (skipBlock · depth)
  | block (position : Position) : IsCall (block · position)
  | body : IsCall body
  | program : IsCall program

theorem Expresses.grows {routine : Nat → Routine α}
    {read : (ctx : Context) → (tokens : List Token) → Reading α tokens}
    (h : Expresses routine read) : Grows fun limit => (routine limit).run := by
  cases h with
  | numExpr => exact grows_numeric.1
  | term => exact grows_numeric.2.1
  | factor => exact grows_numeric.2.2
  | stringExpr => exact grows_stringExpr
  | expression kind => exact grows_expression kind

theorem IsCall.grows {call : Nat → Step α} (h : IsCall call) : Grows call := by
  cases h with
  | expression h => exact h.grows
  | initial kind => exact grows_initial kind
  | declare position => exact grows_declare position
  | assign target => exact grows_assign target
  | print position newline => exact grows_print position newline
  | finish => exact fun _ => .refl _
  | statement => exact grows_bodies.1
  | resync => exact grows_resync
  | skipBlock depth => exact grows_skipBlock depth
  | block position => exact grows_bodies.2.1 position
  | body => exact grows_bodies.2.2.2
  | program => exact grows_program

/-- The call has this one result. -/
structure Gives (call : Nat → Step α) (p : Parser) (a : α) (q : Parser) : Prop where
  /-- It comes back with the result if it may go as deep as four calls for each token ahead. -/
  deep : ∀ limit, 4 * p.cursor.ahead.length + 7 ≤ limit → Runs (call limit) p a q
  /-- It comes back with no other result, whatever the limit is. -/
  only : ∀ limit b r, Runs (call limit) p b r → b = a ∧ r = q

theorem Gives.of_runs {call : Nat → Step α} {a : α} {q : Parser} (h : Grows call)
    (hruns : Runs (call (4 * p.cursor.ahead.length + 7)) p a q) : Gives call p a q where
  deep _ hlimit := h.runs hlimit hruns
  only _ _ _ hother := h.unique hother hruns

/-! ## Expressions -/

section expression

variable {routine : Nat → Routine α} {limit : Nat} {tokens : List Token}
variable {read : (ctx : Context) → (tokens : List Token) → Reading α tokens}

/-- A routine for expressions gives what the reader gives. -/
theorem Expresses.reads (h : Expresses routine read) (hclosed : p.cursor.Closed)
    (hlimit : 3 * p.cursor.ahead.length + 3 ≤ limit) :
    Reads (routine limit) p (read p.context p.cursor.ahead) := by
  have hp : p.Stands p.context p.cursor.ahead := ⟨hclosed, rfl, rfl⟩
  obtain ⟨hnum, hterm, hfactor⟩ := follows_numeric p.context limit
  cases h with
  | numExpr => exact hnum _ hlimit p hp
  | term => exact hterm _ (by omega) p hp
  | factor => exact hfactor _ (by omega) p hp
  | stringExpr =>
    cases limit with
    | zero => cases hlimit
    | succ limit => exact reads_stringExpr hp (by omega)
  | expression kind => exact reads_expression hp hlimit kind

/-- An expression that is read has a token. -/
theorem Expresses.length_lt (h : Expresses routine read) {ctx : Context} {tree : α}
    (hread : (read ctx tokens).outcome = .ok tree) :
    (read ctx tokens).rest.length < tokens.length := by
  obtain ⟨hnum, hterm, hfactor⟩ := numeric_follows ctx tokens
  cases h with
  | numExpr => exact (hnum hread).length_lt
  | term => exact (hterm hread).length_lt
  | factor => exact (hfactor hread).length_lt
  | stringExpr => exact (StringExpr.follows_read ctx tokens hread).length_lt
  | expression => exact (Expr.exprReads_of_read hread).length_lt

theorem Expresses.gives (h : Expresses routine read) (hclosed : p.cursor.Closed) :
    ∃ q, Gives (fun limit => (routine limit).run) p (read p.context p.cursor.ahead).outcome q ∧
      ∀ tree, (read p.context p.cursor.ahead).outcome = .ok tree →
        p.cursor.Passes q.cursor := by
  have hdeep : 3 * p.cursor.ahead.length + 3 ≤ 4 * p.cursor.ahead.length + 7 := by omega
  obtain ⟨c, hc, hruns⟩ := h.reads hclosed hdeep
  exact ⟨_, .of_runs h.grows hruns, fun tree htree => hc.passes (h.length_lt htree)⟩

end expression

/-! ## All calls -/

/-- The call comes back, with the cursor not in front of where it was. -/
def Advances (step : Step α) (p : Parser) : Prop :=
  ∃ a q, Runs step p a q ∧ p.cursor.position ≤ q.cursor.position

theorem Reads.advances {before : List Token} {routine : Routine α} {r : Reading α before}
    (h : Reads routine p r) : Advances routine.run p := by
  obtain ⟨c, hc, hruns⟩ := h
  exact ⟨_, _, hruns, hc.forward⟩

theorem advances_finish (hclosed : p.cursor.Closed) : Advances finish.run p := by
  obtain ⟨tokens, hp⟩ : ∃ tokens, p.Stands p.context tokens := ⟨_, hclosed, rfl, rfl⟩
  have ends {left : List Token} (h : Ends tokens left) : Advances finish.run p := by
    obtain ⟨c, hc, hruns⟩ := runs_finish hp h
    exact ⟨_, _, hruns, hc.forward⟩
  cases tokens with
  | nil => exact ends .input
  | cons token rest =>
    by_cases hline : token.kind = .newline
    · exact ends (.line hline)
    by_cases hbefore : token.kind = .endOfInput ∨ token.kind = .rightBrace ∨ token.kind = .hash
    · exact ends (.before hbefore)
    have hgoes : Statement.endsBefore token.kind = false := by
      simp_all [Statement.endsBefore]
    exact ⟨_, p, runs_finish_failed hp hgoes, Nat.le_refl _⟩

section call

variable {limit : Nat} {rest : List Token}

/-- Behind the first token, four calls less are deep enough for the body of a block. -/
theorem takesBody_entered (hclosed : p.cursor.Closed)
    (htokens : p.cursor.ahead = p.cursor.peek :: rest)
    (hlimit : 4 * p.cursor.ahead.length + 2 ≤ limit) :
    (p.begun.entered p.cursor.peek.position).TakesBody limit := by
  have hpop := (Cursor.Reaches.stay htokens).pop
  refine takesBody hclosed ?_
  rw [htokens, List.length_cons] at hlimit
  change 4 * p.cursor.pop.2.ahead.length + 6 ≤ limit
  rw [hpop.ahead]
  exact hlimit

theorem advances_statement (hclosed : p.cursor.Closed)
    (hlimit : 4 * p.cursor.ahead.length + 4 ≤ limit) : Advances (statement limit).run p := by
  obtain ⟨limit, rfl⟩ := Nat.exists_eq_add_of_le' (show 2 ≤ limit by omega)
  cases htokens : p.cursor.ahead with
  | nil =>
    have hstop : p.cursor.peek.kind = .endOfInput := by rwa [Cursor.peek_of_nil htokens]
    have hfirst : ¬ p.cursor.peek.Begins := by simp [Token.Begins, hstop]
    exact ⟨_, _, runs_statement_unexpected (by simp [hstop]) hfirst, Nat.le_refl _⟩
  | cons token rest =>
    obtain rfl := Cursor.peek_of_cons htokens
    have hinner : (p.begun.entered p.cursor.peek.position).TakesBody limit :=
      takesBody_entered hclosed htokens (by omega)
    rw [htokens, List.length_cons] at hlimit
    obtain ⟨c, left, hc, hruns, -⟩ :=
      runs_statement hclosed htokens (by omega) fun _ => hinner
    exact ⟨_, _, hruns, hc.forward⟩

/-- Every call comes back, and none moves the cursor back. -/
theorem IsCall.advances {call : Nat → Step α} (h : IsCall call) (hclosed : p.cursor.Closed)
    (hlimit : 4 * p.cursor.ahead.length + 7 ≤ limit) : Advances (call limit) p := by
  have hp : p.Stands p.context p.cursor.ahead := ⟨hclosed, rfl, rfl⟩
  have hexpr : 3 * p.cursor.ahead.length + 3 ≤ limit := by omega
  have hloop : p.cursor.ahead.length < limit := by omega
  cases h with
  | expression h => exact (h.reads hclosed hexpr).advances
  | initial kind => exact (reads_initial hp hexpr kind).advances
  | declare position =>
    obtain ⟨c, hc, hruns⟩ := takes_declare hp hexpr position
    exact ⟨_, _, hruns, hc.forward⟩
  | assign target => exact (reads_assign hp hexpr target).advances
  | print position newline => exact (reads_print hp hexpr position newline).advances
  | finish => exact advances_finish hclosed
  | statement => exact advances_statement hclosed (by omega)
  | resync =>
    obtain ⟨c, hc, hruns⟩ := runs_resync hclosed hloop
    exact ⟨_, _, hruns, hc.forward⟩
  | skipBlock depth =>
    obtain ⟨c, hc, hruns⟩ := runs_skipBlock hclosed hloop depth
    exact ⟨_, _, hruns, hc.forward⟩
  | block position =>
    cases limit with
    | zero => cases hlimit
    | succ limit =>
      have hbody : (p.entered position).TakesBody limit :=
        takesBody hclosed (Nat.le_of_succ_le_succ hlimit)
      obtain ⟨c, hc, hruns⟩ := runs_block hbody
      exact ⟨_, _, hruns, hc.forward⟩
  | body =>
    obtain ⟨c, hc, hruns⟩ := takesBody hclosed (Nat.le_of_succ_le hlimit)
    exact ⟨_, _, hruns, hc.forward⟩
  | program =>
    obtain ⟨c, hc, hruns⟩ := takesBody hclosed (Nat.le_of_succ_le hlimit)
    exact ⟨_, _, .bind hruns (.bind (.get _) (.pure _ _)), hc.forward⟩

end call

/-- A turn of the loop leaves the first token of its statement behind, also if that token is given
back on the way. -/
theorem turn_passes (hclosed : p.cursor.Closed) (hstart : p.cursor.peek.StartsStatement) :
    ∃ out q, Gives turn p out q ∧ p.cursor.Passes q.cursor := by
  cases htokens : p.cursor.ahead with
  | nil =>
    have hstop : p.cursor.peek.kind = .endOfInput := by rwa [Cursor.peek_of_nil htokens]
    exact absurd hstop hstart.2.2.1
  | cons token rest =>
    obtain rfl := Cursor.peek_of_cons htokens
    have hlength : rest.length < p.cursor.ahead.length := by
      rw [htokens]
      exact Nat.lt_succ_self _
    have hinner : (p.begun.entered p.cursor.peek.position).TakesBody
        (4 * p.cursor.ahead.length + 4) := takesBody_entered hclosed htokens (by omega)
    obtain ⟨c, left, tree, goes, arena, errors, log, hsuffix, hc, hturn, -⟩ :=
      runs_turn hclosed htokens hstart (by omega) fun _ => hinner
    exact ⟨_, _, .of_runs grows_bodies.2.2.1 hturn,
      hc.passes (Nat.lt_of_le_of_lt hsuffix.length_le hlength)⟩

/-- The parser ends and makes progress, for all tokens. From the first token it comes back with the
program of `Program.ofTokens`. From wherever it is among the tokens or behind them, every call
comes back and none moves the cursor back; a statement of a body, with what follows it if it
fails, and an expression that is parsed leave the cursor behind at least one token. -/
theorem progresses (tokens : List Token) :
    (∃ tree q, Gives program (start (.ofTokens tokens)) tree q ∧
      Program.ofTokens (.ofTokens tokens) = (tree, q.errors, q.log)) ∧
    ∀ (p : Parser) (n : Nat), p.cursor = { Cursor.ofTokens tokens with position := n } →
      (∀ {α : Type} {call : Nat → Step α}, IsCall call →
        ∃ a q, Gives call p a q ∧ p.cursor.position ≤ q.cursor.position) ∧
      (p.cursor.peek.StartsStatement →
        ∃ out q, Gives turn p out q ∧ p.cursor.Passes q.cursor) ∧
      ∀ {α : Type} {routine : Nat → Routine α} {read}, Expresses routine read →
        ∃ q, Gives (fun limit => (routine limit).run) p
            (read p.context p.cursor.ahead).outcome q ∧
          ∀ tree, (read p.context p.cursor.ahead).outcome = .ok tree →
            p.cursor.Passes q.cursor := by
  have hclosed := Cursor.closed_ofTokens tokens
  refine ⟨?_, ?_⟩
  · obtain ⟨tree, q, hruns, hgiven⟩ := runs_program hclosed (Nat.le_succ _)
    exact ⟨tree, q, .of_runs grows_program hruns, hgiven⟩
  intro p n hcursor
  have hp : p.cursor.Closed := by
    rw [hcursor]
    exact hclosed
  refine ⟨?_, turn_passes hp, fun h => h.gives hp⟩
  intro α call h
  obtain ⟨a, q, hruns, hforward⟩ := h.advances hp (Nat.le_refl _)
  exact ⟨a, q, .of_runs h.grows hruns, hforward⟩

/-- An end of input is among the tokens. The first one begins no statement and is given back, and
the second is an expression. -/
theorem progresses_among_ends :
    let tokens : List Token := [⟨.rightParen, ")", ⟨1, 1⟩⟩, ⟨.integer, "1", ⟨1, 2⟩⟩,
      ⟨.endOfInput, "", ⟨1, 3⟩⟩, ⟨.plus, "+", ⟨1, 4⟩⟩]
    let first := Cursor.ofTokens tokens
    let second := { first with position := 1 }
    (∃ out q, Gives turn (start first) out q ∧ first.Passes q.cursor) ∧
      (∃ trees q, Gives body (start second) trees q ∧ 1 ≤ q.cursor.position) ∧
      ∃ tree q, Gives (fun limit => (numExpr limit).run) (start second) (.ok tree) q ∧
        second.Passes q.cursor := by
  intro tokens first second
  obtain ⟨-, hall⟩ := progresses tokens
  obtain ⟨-, hturn, -⟩ := hall (start first) 0 rfl
  obtain ⟨hcall, -, hexpression⟩ := hall (start second) 1 rfl
  obtain ⟨q, hgives, hpasses⟩ := hexpression .numExpr
  have hstart : first.peek.StartsStatement := by
    unfold Token.StartsStatement
    decide
  have hok : (NumExpr.read (start second).context second.ahead).outcome.isOk = true := by
    decide +kernel
  refine ⟨hturn hstart, hcall .body, ?_⟩
  cases htree : (NumExpr.read (start second).context second.ahead).outcome with
  | error e =>
    rw [htree] at hok
    cases hok
  | ok tree => exact ⟨tree, q, htree ▸ hgives, hpasses tree htree⟩

end Parser

end LineScript
