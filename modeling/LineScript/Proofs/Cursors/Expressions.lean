import LineScript.Proofs.Cursors.Runs
import LineScript.Proofs.Reading.Trees

/-!
# Expressions from a cursor

The routines for expressions come back and give what the readers of expressions give, tree or
error, with the cursor in front of the tokens that the readers leave (`Parser.reads_expression`).
A tree takes at least one token (`ExprReads.length_lt`), so the cursor moves.
-/

namespace LineScript

/-! ## What a tree takes -/

section taken

variable {ctx : Context} {kind : Kind} {tokens left : List Token}

mutual

theorem NumReads.length_lt : ∀ {tokens left : List Token} {tree : NumExpr},
    NumReads ctx tokens tree left → left.length < tokens.length
  | _, _, _, .single first _ => first.length_lt
  | _, _, _, .chain first _ more =>
    Nat.lt_trans more.length_lt (Nat.lt_of_succ_lt first.length_lt)

theorem TermReads.length_lt : ∀ {tokens left : List Token} {tree : Term},
    TermReads ctx tokens tree left → left.length < tokens.length
  | _, _, _, .single first _ => first.length_lt
  | _, _, _, .chain first _ more =>
    Nat.lt_trans more.length_lt (Nat.lt_of_succ_lt first.length_lt)

theorem FactorReads.length_lt : ∀ {tokens left : List Token} {tree : Factor},
    FactorReads ctx tokens tree left → left.length < tokens.length
  | _, _, _, .literal _ _ => Nat.lt_succ_self _
  | _, _, _, .signed _ _ _ => Nat.lt_succ_of_lt (Nat.lt_succ_self _)
  | _, _, _, .negate _ _ factor => Nat.lt_succ_of_lt factor.length_lt
  | _, _, _, .paren _ sum _ => Nat.lt_succ_of_lt (Nat.lt_of_succ_lt sum.length_lt)
  | _, _, _, .reference _ _ => Nat.lt_succ_self _

end

theorem StringReads.length_lt {tree : StringExpr} (h : StringReads ctx tokens tree left) :
    left.length < tokens.length := by
  induction h with
  | single => exact Nat.lt_succ_self _
  | chain _ _ _ ih => exact Nat.lt_succ_of_lt (Nat.lt_succ_of_lt ih)

theorem ExprReads.length_lt {tree : Expr} (h : ExprReads ctx tokens tree left) :
    left.length < tokens.length := by
  cases h with
  | number sum => exact sum.length_lt
  | string text => exact text.length_lt

end taken

/-! ## Chains -/

section chains

variable {α β : Type} {ctx : Context} {tokens : List Token}

/-- What a reader of chains makes of the reading of an operand. -/
def Reading.chained (op? : TokenKind → Option Operator) (single : α → β)
    (chain : α → Operator → β → β) (read : (tokens : List Token) → Reading β tokens) :
    Reading α tokens → Reading β tokens
  | ⟨.error e, rest, h⟩ => ⟨.error e, rest, h⟩
  | ⟨.ok tree, [], h⟩ => ⟨.ok (single tree), [], h⟩
  | ⟨.ok tree, token :: rest, h⟩ =>
    match op? token.kind with
    | none => ⟨.ok (single tree), token :: rest, h⟩
    | some op => ((read rest).map (chain tree op)).within (suffix_of_cons_suffix h)

theorem NumExpr.read_eq_chained : NumExpr.read ctx tokens =
    (Term.read ctx tokens).chained Operator.sum? .single .chain (NumExpr.read ctx) := by
  rw [NumExpr.read]
  obtain ⟨outcome, rest, hsuffix⟩ := Term.read ctx tokens
  cases outcome with
  | error => rfl
  | ok => cases rest <;> rfl

theorem Term.read_eq_chained : Term.read ctx tokens =
    (Factor.read ctx tokens).chained Operator.product? .single .chain (Term.read ctx) := by
  rw [Term.read]
  obtain ⟨outcome, rest, hsuffix⟩ := Factor.read ctx tokens
  cases outcome with
  | error => rfl
  | ok => cases rest <;> rfl

end chains

namespace Parser

variable {α β : Type} {p : Parser} {c : Cursor} {ctx : Context} {token : Token} {limit : Nat}
variable {tokens later left rest before : List Token}

/-- The parser stands in front of these tokens and reads them against this context. -/
structure Stands (p : Parser) (ctx : Context) (tokens : List Token) : Prop where
  closed : p.cursor.Closed
  context : p.context = ctx
  ahead : p.cursor.ahead = tokens

namespace Stands

theorem moved (h : p.Stands ctx tokens) (hc : p.cursor.Reaches c left) :
    (p.moved c).Stands ctx left where
  closed := hc.closed h.closed
  context := by
    rw [← h.context]
    simp only [Parser.context, site, Parser.moved, hc.closing]
  ahead := hc.ahead

theorem peek (h : p.Stands ctx (token :: rest)) : p.cursor.peek = token :=
  Cursor.peek_of_cons h.ahead

theorem pop (h : p.Stands ctx (token :: rest)) : p.cursor.Reaches p.cursor.pop.2 rest :=
  (Cursor.Reaches.stay h.ahead).pop

/-- The end of input looks the same, whatever its text. -/
theorem peek_like_front (h : p.Stands ctx tokens) :
    p.cursor.peek.kind = (ctx.front tokens).kind ∧
      p.cursor.peek.position = (ctx.front tokens).position ∧
      p.cursor.peek.describe = (ctx.front tokens).describe := by
  obtain ⟨hclosed, rfl, hahead⟩ := h
  cases tokens with
  | nil =>
    rw [Cursor.peek_of_nil hahead]
    have hkind : p.cursor.closing.kind = .endOfInput := hclosed
    refine ⟨hkind, rfl, ?_⟩
    simp only [Token.describe, hkind]
    rfl
  | cons token rest =>
    rw [Cursor.peek_of_cons hahead]
    exact ⟨rfl, rfl, rfl⟩

theorem kind_peek (h : p.Stands ctx tokens) : p.cursor.peek.kind = (ctx.front tokens).kind :=
  h.peek_like_front.1

theorem expected_peek (h : p.Stands ctx tokens) (what : Expectation) :
    SyntaxError.expected what p.cursor.peek = .expected what (ctx.front tokens) := by
  simp only [SyntaxError.expected, h.peek_like_front.2]

theorem mismatch_peek (h : p.Stands ctx tokens) (expected actual : Kind) :
    SyntaxError.mismatch expected actual p.cursor.peek =
      .mismatch expected actual (ctx.front tokens) := by
  simp only [SyntaxError.mismatch, h.peek_like_front.2]

theorem unclosedParen_peek (h : p.Stands ctx tokens) :
    SyntaxError.unclosedParen p.cursor.peek = .unclosedParen (ctx.front tokens) := by
  simp only [SyntaxError.unclosedParen, h.peek_like_front.2]

end Stands

/-- The routine comes back with the outcome of the reading and with the cursor in front of the
tokens that the reading leaves. -/
def Reads (routine : Routine α) (p : Parser) (r : Reading α before) : Prop :=
  ∃ c, p.cursor.Reaches c r.rest ∧ Runs routine.run p r.outcome (p.moved c)

theorem Reads.stay {routine : Routine α} {outcome : Except SyntaxError α}
    (h : p.Stands ctx before) (hruns : Runs routine.run p outcome p) :
    Reads routine p (.stay before outcome) :=
  ⟨p.cursor, .stay h.ahead, hruns⟩

/-! ## Factors -/

/-- Standing in front of these tokens, the routine gives what the reader gives. -/
def Follows (routine : Routine α)
    (read : (ctx : Context) → (tokens : List Token) → Reading α tokens)
    (ctx : Context) (tokens : List Token) : Prop :=
  ∀ p : Parser, p.Stands ctx tokens → Reads routine p (read ctx tokens)

theorem runs_factor_of_isNumber (h : p.cursor.peek.isNumber = true) :
    Runs (factor (limit + 1)).run p ((p.cursor.peek.number "").map .literal)
      (p.moved p.cursor.pop.2) := by
  rw [factor]
  refine .andThen (.lift (.peek p)) ?_
  obtain hkind | hkind := Token.integer_or_float h
  · simp only [hkind]
    exact .andThen (.lift (.pop p)) ((Runs.settle rfl _).map _)
  · simp only [hkind]
    exact .andThen (.lift (.pop p)) ((Runs.settle rfl _).map _)

section factor

variable {q : Parser} {e : SyntaxError} {outcome : Except SyntaxError Factor} {inner : NumExpr}

theorem runs_factor_signed (hdash : p.cursor.peek.kind = .dash)
    (hnumber : p.cursor.pop.2.peek.isNumber = true) :
    Runs (factor (limit + 1)).run p ((p.cursor.pop.2.peek.number "-").map .literal)
      (p.moved p.cursor.pop.2.pop.2) := by
  rw [factor]
  refine .andThen (.lift (.peek p)) ?_
  simp only [hdash]
  refine .andThen (.lift (.pop p)) (.andThen (.lift (.peek _)) ?_)
  rw [moved_cursor, if_pos hnumber]
  exact .andThen (.lift (.pop _)) ((Runs.settle rfl _).map _)

theorem runs_factor_negate (hdash : p.cursor.peek.kind = .dash)
    (hnumber : p.cursor.pop.2.peek.isNumber = false)
    (hinner : Runs (factor limit).run (p.moved p.cursor.pop.2) outcome q) :
    Runs (factor (limit + 1)).run p (outcome.map .negate) q := by
  rw [factor]
  refine .andThen (.lift (.peek p)) ?_
  simp only [hdash]
  refine .andThen (.lift (.pop p)) (.andThen (.lift (.peek _)) ?_)
  rw [moved_cursor, if_neg (Bool.not_eq_true _ ▸ hnumber)]
  exact hinner.map _

/-- Behind an opening parenthesis a numeric expression is read. -/
theorem runs_factor_opened (hopening : p.cursor.peek.kind = .leftParen)
    (hinner : Runs (numExpr limit).run (p.moved p.cursor.pop.2) (.ok inner) q) :
    (q.cursor.peek.kind = .rightParen →
      Runs (factor (limit + 1)).run p (.ok (.paren inner)) (q.moved q.cursor.pop.2)) ∧
    (q.cursor.peek.kind ≠ .rightParen →
      Runs (factor (limit + 1)).run p (.error (.unclosedParen q.cursor.peek)) q) := by
  constructor
  · intro hclose
    rw [factor]
    refine .andThen (.lift (.peek p)) ?_
    simp only [hopening]
    refine .andThen (.lift (.pop p)) (.andThen hinner (.andThen (.lift (.peek q)) ?_))
    rw [if_pos hclose]
    exact .andThen (.lift (.pop q)) (.done _ _)
  · intro hclose
    rw [factor]
    refine .andThen (.lift (.peek p)) ?_
    simp only [hopening]
    refine .andThen (.lift (.pop p)) (.andThen hinner (.andThen (.lift (.peek q)) ?_))
    rw [if_neg hclose]
    exact .fail _ q

theorem runs_factor_unread (hopening : p.cursor.peek.kind = .leftParen)
    (hinner : Runs (numExpr limit).run (p.moved p.cursor.pop.2) (.error e) q) :
    Runs (factor (limit + 1)).run p (.error e) q := by
  rw [factor]
  refine .andThen (.lift (.peek p)) ?_
  simp only [hopening]
  exact .andThen (.lift (.pop p)) hinner.failed

theorem runs_factor_reference {ref : Reference} (hkind : p.cursor.peek.kind = .identifier)
    (href : p.context.reference .number p.cursor.peek = .ok ref) :
    Runs (factor (limit + 1)).run p (.ok (.reference ref)) (p.moved p.cursor.pop.2) := by
  rw [factor]
  refine .andThen (.lift (.peek p)) ?_
  simp only [hkind]
  refine .andThen (.state p) (.andThen (.settle href p) ?_)
  exact .andThen (.lift (.pop p)) (.done _ _)

theorem runs_factor_unresolved (hkind : p.cursor.peek.kind = .identifier)
    (href : p.context.reference .number p.cursor.peek = .error e) :
    Runs (factor (limit + 1)).run p (.error e) p := by
  rw [factor]
  refine .andThen (.lift (.peek p)) ?_
  simp only [hkind]
  exact .andThen (.state p) (Runs.settle href p).failed

theorem runs_factor_none (hnumber : p.cursor.peek.isNumber = false)
    (hdash : p.cursor.peek.kind ≠ .dash) (hparen : p.cursor.peek.kind ≠ .leftParen)
    (hname : p.cursor.peek.kind ≠ .identifier) :
    Runs (factor (limit + 1)).run p (.error (.expected .numberOperand p.cursor.peek)) p := by
  rw [factor]
  refine .andThen (.lift (.peek p)) ?_
  split
  case h_6 => exact .fail _ p
  all_goals simp_all [Token.isNumber]

end factor

theorem follows_factor
    (hfactor : ∀ later : List Token, later.length < tokens.length →
      Follows (factor limit) Factor.read ctx later)
    (hnum : ∀ later : List Token, later.length < tokens.length →
      Follows (numExpr limit) NumExpr.read ctx later) :
    Follows (factor (limit + 1)) Factor.read ctx tokens := by
  intro p h
  rw [Factor.read.eq_def]
  split
  case h_1 =>
    have hkind : p.cursor.peek.kind = .endOfInput := h.kind_peek
    refine .stay h ?_
    rw [← h.expected_peek]
    exact runs_factor_none (by simp [Token.isNumber, hkind]) (by simp [hkind]) (by simp [hkind])
      (by simp [hkind])
  case h_2 token rest =>
    have hshort : rest.length < (token :: rest).length := Nat.lt_succ_self _
    have hnext := h.moved h.pop
    obtain rfl := h.peek
    split
    case h_1 hkind =>
      exact ⟨_, h.pop, runs_factor_of_isNumber (by simp [Token.isNumber, hkind])⟩
    case h_2 hkind =>
      exact ⟨_, h.pop, runs_factor_of_isNumber (by simp [Token.isNumber, hkind])⟩
    case h_3 hkind =>
      split
      case h_1 =>
        have hstop : p.cursor.pop.2.peek.kind = .endOfInput := hnext.kind_peek
        obtain ⟨c, hc, hruns⟩ := hfactor _ hshort _ hnext
        rw [Factor.read] at hc hruns
        exact ⟨c, h.pop.trans hc, runs_factor_negate hkind (by simp [Token.isNumber, hstop]) hruns⟩
      case h_2 next later =>
        obtain rfl := hnext.peek
        split
        case isTrue hnumber => exact ⟨_, h.pop.pop, runs_factor_signed hkind hnumber⟩
        case isFalse hnumber =>
          obtain ⟨c, hc, hruns⟩ := hfactor _ hshort _ hnext
          exact ⟨c, h.pop.trans hc, runs_factor_negate hkind (Bool.eq_false_iff.mpr hnumber) hruns⟩
    case h_4 hkind =>
      obtain ⟨c, hc, hruns⟩ := hnum _ hshort _ hnext
      have hthen := hnext.moved hc
      split
      case h_1 heq =>
        rw [heq] at hc hruns
        exact ⟨c, h.pop.trans hc, runs_factor_unread hkind hruns⟩
      case h_2 heq =>
        rw [heq] at hc hruns hthen
        have hstop : c.peek.kind = .endOfInput := hthen.kind_peek
        refine ⟨c, h.pop.trans hc, ?_⟩
        rw [← hthen.unclosedParen_peek]
        exact (runs_factor_opened hkind hruns).2 (by simp [Parser.moved, hstop])
      case h_3 inner close left _ heq =>
        rw [heq] at hc hruns hthen
        obtain rfl := hthen.peek
        split
        case isTrue hclose =>
          exact ⟨_, (h.pop.trans hc).pop, (runs_factor_opened hkind hruns).1 hclose⟩
        case isFalse hclose =>
          exact ⟨c, h.pop.trans hc, (runs_factor_opened hkind hruns).2 hclose⟩
    case h_5 hkind =>
      rw [← h.context]
      split
      case h_1 e href => exact .stay h (runs_factor_unresolved hkind href)
      case h_2 ref href => exact ⟨_, h.pop, runs_factor_reference hkind href⟩
    case h_6 =>
      refine .stay h (runs_factor_none ?_ ?_ ?_ ?_)
      all_goals simp_all [Token.isNumber]

/-! ## Terms and sums -/

section chained

variable {operand : Routine α} {op? : TokenKind → Option Operator} {single : α → β}
variable {chain : α → Operator → β → β} {more : Routine β}
variable {q r : Parser} {e : SyntaxError} {tree : α} {op : Operator}
variable {outcome : Except SyntaxError β}

/-- An operand, and more if an operator stands behind it. -/
def chained (operand : Routine α) (op? : TokenKind → Option Operator) (single : α → β)
    (chain : α → Operator → β → β) (more : Routine β) : Routine β := do
  let tree ← operand
  let token ← pop
  match op? token.kind with
  | none => do
    pushBack
    return single tree
  | some op => return chain tree op (← more)

theorem runs_chained_failed (h : Runs operand.run p (.error e) q) :
    Runs (chained operand op? single chain more).run p (.error e) q :=
  h.failed

/-- A token that is no operator is given back. -/
theorem runs_chained_single (h : Runs operand.run p (.ok tree) q)
    (hop : op? q.cursor.peek.kind = none) :
    Runs (chained operand op? single chain more).run p (.ok (single tree)) q := by
  refine h.andThen (.andThen (.lift (.pop q)) ?_)
  simp only [hop]
  exact .andThen (.lift rfl) (.done _ q)

theorem runs_chained_more (h : Runs operand.run p (.ok tree) q)
    (hop : op? q.cursor.peek.kind = some op)
    (hmore : Runs more.run (q.moved q.cursor.pop.2) outcome r) :
    Runs (chained operand op? single chain more).run p (outcome.map (chain tree op)) r := by
  refine h.andThen (.andThen (.lift (.pop q)) ?_)
  simp only [hop]
  exact hmore.map _

theorem reads_chained {reading : Reading α tokens} {read : (tokens : List Token) → Reading β tokens}
    (h : p.Stands ctx tokens) (hoperand : Reads operand p reading)
    (hinput : op? .endOfInput = none)
    (hmore : ∀ later : List Token, later.length < tokens.length →
      ∀ q : Parser, q.Stands ctx later → Reads more q (read later)) :
    Reads (chained operand op? single chain more) p (reading.chained op? single chain read) := by
  obtain ⟨c, hc, hruns⟩ := hoperand
  have hthen := h.moved hc
  obtain ⟨outcome, left, hsuffix⟩ := reading
  cases outcome with
  | error e => exact ⟨c, hc, runs_chained_failed hruns⟩
  | ok tree =>
    cases left with
    | nil =>
      have hstop : c.peek.kind = .endOfInput := hthen.kind_peek
      exact ⟨c, hc, runs_chained_single hruns (by simpa only [moved, hstop])⟩
    | cons token rest =>
      obtain rfl := hthen.peek
      simp only [Reading.chained]
      split
      case h_1 hop => exact ⟨c, hc, runs_chained_single hruns hop⟩
      case h_2 op hop =>
        obtain ⟨d, hd, hrest⟩ := hmore rest hsuffix.length_le _ (hthen.moved hthen.pop)
        exact ⟨d, hc.pop.trans hd, runs_chained_more hruns hop hrest⟩

end chained

theorem follows_numExpr (hterm : Follows (term limit) Term.read ctx tokens)
    (hrest : ∀ later : List Token, later.length < tokens.length →
      Follows (numExpr limit) NumExpr.read ctx later) :
    Follows (numExpr (limit + 1)) NumExpr.read ctx tokens := by
  intro p h
  have hroutine : numExpr (limit + 1) =
      chained (term limit) Operator.sum? .single .chain (numExpr limit) := numExpr.eq_2 limit
  rw [hroutine, NumExpr.read_eq_chained]
  exact reads_chained h (hterm p h) rfl hrest

theorem follows_term (hfactor : Follows (factor limit) Factor.read ctx tokens)
    (hrest : ∀ later : List Token, later.length < tokens.length →
      Follows (term limit) Term.read ctx later) :
    Follows (term (limit + 1)) Term.read ctx tokens := by
  intro p h
  have hroutine : term (limit + 1) =
      chained (factor limit) Operator.product? .single .chain (term limit) := term.eq_2 limit
  rw [hroutine, Term.read_eq_chained]
  exact reads_chained h (hfactor p h) rfl hrest

/-- The routines for numeric expressions give what their readers give. Three calls for each token
are deep enough: from a sum to its first factor, and from there behind the token. -/
theorem follows_numeric (ctx : Context) (limit : Nat) :
    (∀ tokens : List Token, 3 * tokens.length + 3 ≤ limit →
      Follows (numExpr limit) NumExpr.read ctx tokens) ∧
    (∀ tokens : List Token, 3 * tokens.length + 2 ≤ limit →
      Follows (term limit) Term.read ctx tokens) ∧
    ∀ tokens : List Token, 3 * tokens.length + 1 ≤ limit →
      Follows (factor limit) Factor.read ctx tokens := by
  induction limit with
  | zero => exact ⟨nofun, nofun, nofun⟩
  | succ limit ih =>
    obtain ⟨hnum, hterm, hfactor⟩ := ih
    refine ⟨?_, ?_, ?_⟩
    · intro tokens hlimit
      refine follows_numExpr (hterm tokens (by omega)) ?_
      intro later hlater
      exact hnum later (by omega)
    · intro tokens hlimit
      refine follows_term (hfactor tokens (by omega)) ?_
      intro later hlater
      exact hterm later (by omega)
    · intro tokens hlimit
      refine follows_factor ?_ ?_
      · intro later hlater
        exact hfactor later (by omega)
      · intro later hlater
        exact hnum later (by omega)

/-! ## Strings -/

section string

variable {e : SyntaxError} {operand : StringOperand} {outcome : Except SyntaxError StringExpr}
variable {q : Parser}

theorem Stands.operand_peek (h : p.Stands ctx tokens) :
    StringOperand.read p.context p.cursor.peek = StringOperand.read ctx (ctx.front tokens) := by
  have hclosed := h.expected_peek .stringOperand
  obtain ⟨-, rfl, hahead⟩ := id h
  cases tokens with
  | nil =>
    have hkind : p.cursor.peek.kind = .endOfInput := h.kind_peek
    simp only [StringOperand.read, hkind, hclosed]
    rfl
  | cons token rest => rw [h.peek]; rfl

theorem runs_stringExpr_failed (h : StringOperand.read p.context p.cursor.peek = .error e) :
    Runs (stringExpr (limit + 1)).run p (.error e) p := by
  rw [stringExpr]
  exact .andThen (.lift (.peek p)) (.andThen (.state p) (Runs.settle h p).failed)

theorem runs_stringExpr_single (h : StringOperand.read p.context p.cursor.peek = .ok operand)
    (hplus : p.cursor.pop.2.peek.kind ≠ .plus) :
    Runs (stringExpr (limit + 1)).run p (.ok (.single operand)) (p.moved p.cursor.pop.2) := by
  rw [stringExpr]
  refine .andThen (.lift (.peek p)) (.andThen (.state p) (.andThen (.settle h p) ?_))
  refine .andThen (.lift (.pop p)) (.andThen (.lift (.pop _)) ?_)
  rw [moved_cursor, if_neg hplus]
  exact .andThen (.lift rfl) (.done _ _)

theorem runs_stringExpr_chain (h : StringOperand.read p.context p.cursor.peek = .ok operand)
    (hplus : p.cursor.pop.2.peek.kind = .plus)
    (hmore : Runs (stringExpr limit).run (p.moved p.cursor.pop.2.pop.2) outcome q) :
    Runs (stringExpr (limit + 1)).run p (outcome.map (.chain operand)) q := by
  rw [stringExpr]
  refine .andThen (.lift (.peek p)) (.andThen (.state p) (.andThen (.settle h p) ?_))
  refine .andThen (.lift (.pop p)) (.andThen (.lift (.pop _)) ?_)
  rw [moved_cursor, if_pos hplus]
  exact hmore.map _

end string

theorem reads_stringExpr (h : p.Stands ctx tokens) (hlimit : tokens.length ≤ limit) :
    Reads (stringExpr (limit + 1)) p (StringExpr.read ctx tokens) := by
  fun_induction StringExpr.read ctx tokens generalizing p limit with
  | case1 => exact .stay h (runs_stringExpr_failed h.operand_peek)
  | case2 token rest e he => exact .stay h (runs_stringExpr_failed (h.operand_peek.trans he))
  | case3 token operand hoperand =>
    have hstop : p.cursor.pop.2.peek.kind = .endOfInput := (h.moved h.pop).kind_peek
    exact ⟨_, h.pop, runs_stringExpr_single (h.operand_peek.trans hoperand) (by simp [hstop])⟩
  | case4 token operand hoperand next later hplus ih =>
    have hnext := h.moved h.pop
    obtain rfl := hnext.peek
    cases limit with
    | zero => cases hlimit
    | succ limit =>
      have hmore : later.length ≤ limit := Nat.le_of_succ_le (Nat.le_of_succ_le_succ hlimit)
      obtain ⟨c, hc, hruns⟩ := ih (hnext.moved hnext.pop) hmore
      exact ⟨c, h.pop.pop.trans hc,
        runs_stringExpr_chain (h.operand_peek.trans hoperand) hplus hruns⟩
  | case5 token operand hoperand next later hplus =>
    obtain rfl := (h.moved h.pop).peek
    exact ⟨_, h.pop, runs_stringExpr_single (h.operand_peek.trans hoperand) hplus⟩

/-! ## Expressions of a wanted kind -/

theorem Stands.kindOf?_peek (h : p.Stands ctx tokens) :
    p.context.kindOf? p.cursor.peek = ctx.kindOf? (ctx.front tokens) := by
  obtain ⟨-, rfl, hahead⟩ := id h
  cases tokens with
  | nil =>
    have hkind : p.cursor.peek.kind = .endOfInput := h.kind_peek
    simp only [Context.kindOf?, hkind]
    rfl
  | cons token rest =>
    rw [h.peek]
    rfl

/-- The routine for expressions gives what the reader of expressions gives, if the limit is deep
enough for the tokens. -/
theorem reads_expression (h : p.Stands ctx tokens) (hlimit : 3 * tokens.length + 3 ≤ limit)
    (kind : Kind) : Reads (expression limit kind) p (Expr.read ctx kind tokens) := by
  have hfront := h.kindOf?_peek
  unfold Expr.read
  split
  case h_1 e he =>
    refine .stay h (.andThen (.lift (.peek p)) (.andThen (.state p) ?_))
    exact (Runs.settle (hfront.trans he) p).failed
  case h_2 hnone =>
    refine .stay h (.andThen (.lift (.peek p)) (.andThen (.state p) ?_))
    rw [← h.expected_peek]
    exact .andThen (.settle (hfront.trans hnone) p) (.fail _ p)
  case h_3 actual hactual =>
    split
    case isFalse hne =>
      refine .stay h (.andThen (.lift (.peek p)) (.andThen (.state p) ?_))
      refine .andThen (.settle (hfront.trans hactual) p) ?_
      rw [← h.mismatch_peek]
      simp only [if_neg hne]
      exact .fail _ p
    case isTrue heq =>
      subst heq
      cases actual with
      | number =>
        obtain ⟨c, hc, hruns⟩ := (follows_numeric ctx limit).1 tokens hlimit p h
        refine ⟨c, hc, .andThen (.lift (.peek p)) (.andThen (.state p) ?_)⟩
        exact .andThen (.settle (hfront.trans hactual) p) (hruns.map Expr.number)
      | string =>
        cases limit with
        | zero => cases hlimit
        | succ limit =>
          obtain ⟨c, hc, hruns⟩ := reads_stringExpr h (show tokens.length ≤ limit by omega)
          refine ⟨c, hc, .andThen (.lift (.peek p)) (.andThen (.state p) ?_)⟩
          exact .andThen (.settle (hfront.trans hactual) p) (hruns.map Expr.string)

/-- A limit that is deep enough for expressions stays so behind a token. -/
theorem deep_of_cons (h : 3 * (token :: rest).length + 3 ≤ limit) :
    3 * rest.length + 3 ≤ limit := by
  rw [List.length_cons] at h
  omega

end Parser

end LineScript
