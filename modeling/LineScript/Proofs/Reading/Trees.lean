import LineScript.Proofs.Reading.Expressions

/-!
# The rules of reading expressions

`NumReads`, `TermReads`, `FactorReads` and `StringReads` list the ways in which an
expression is read, one rule for each shape of its tree, and `ExprReads` joins the
two kinds. A rule says which tokens belong to the tree and which are left. Every
reading that succeeds follows the rules (`Expr.exprReads_of_read`), so a property
that relates trees to their tokens is proved by an induction over the rules, and the
readers are not unfolded again.
-/

namespace LineScript

mutual

/-- The first tokens are read as the tree, and the second are left. -/
inductive NumReads (ctx : Context) : List Token → NumExpr → List Token → Prop where
  | single {tokens left : List Token} {term : Term} (first : TermReads ctx tokens term left)
      (hstop : NoSum left) : NumReads ctx tokens (.single term) left
  | chain {tokens later left : List Token} {sign : Token} {op : Operator} {term : Term}
      {rest : NumExpr} (first : TermReads ctx tokens term (sign :: later))
      (hop : Operator.sum? sign.kind = some op) (more : NumReads ctx later rest left) :
      NumReads ctx tokens (.chain term op rest) left

inductive TermReads (ctx : Context) : List Token → Term → List Token → Prop where
  | single {tokens left : List Token} {factor : Factor} (first : FactorReads ctx tokens factor left)
      (hstop : NoProduct left) : TermReads ctx tokens (.single factor) left
  | chain {tokens later left : List Token} {sign : Token} {op : Operator} {factor : Factor}
      {rest : Term} (first : FactorReads ctx tokens factor (sign :: later))
      (hop : Operator.product? sign.kind = some op) (more : TermReads ctx later rest left) :
      TermReads ctx tokens (.chain factor op rest) left

inductive FactorReads (ctx : Context) : List Token → Factor → List Token → Prop where
  | literal {token : Token} {left : List Token} {n : Number} (hnumber : token.isNumber = true)
      (hn : token.number "" = .ok n) : FactorReads ctx (token :: left) (.literal n) left
  | signed {sign token : Token} {left : List Token} {n : Number} (hsign : sign.kind = .dash)
      (hnumber : token.isNumber = true) (hn : token.number "-" = .ok n) :
      FactorReads ctx (sign :: token :: left) (.literal n) left
  | negate {sign next : Token} {later left : List Token} {inner : Factor}
      (hsign : sign.kind = .dash) (hnumber : next.isNumber = false)
      (factor : FactorReads ctx (next :: later) inner left) :
      FactorReads ctx (sign :: next :: later) (.negate inner) left
  | paren {opening closing : Token} {tokens left : List Token} {inner : NumExpr}
      (hopening : opening.kind = .leftParen) (sum : NumReads ctx tokens inner (closing :: left))
      (hclosing : closing.kind = .rightParen) :
      FactorReads ctx (opening :: tokens) (.paren inner) left
  | reference {token : Token} {left : List Token} {ref : Reference}
      (hkind : token.kind = .identifier) (href : ctx.reference .number token = .ok ref) :
      FactorReads ctx (token :: left) (.reference ref) left

end

/-- The first token, if there is one, does not go on with a string expression. -/
def NoPlus : List Token → Prop
  | [] => True
  | token :: _ => token.kind ≠ .plus

/-- The first tokens are read as the string expression, and the second are left. -/
inductive StringReads (ctx : Context) : List Token → StringExpr → List Token → Prop where
  | single {token : Token} {left : List Token} {operand : StringOperand}
      (hoperand : StringOperand.read ctx token = .ok operand) (hstop : NoPlus left) :
      StringReads ctx (token :: left) (.single operand) left
  | chain {token plus : Token} {later left : List Token} {operand : StringOperand}
      {rest : StringExpr} (hoperand : StringOperand.read ctx token = .ok operand)
      (hplus : plus.kind = .plus) (more : StringReads ctx later rest left) :
      StringReads ctx (token :: plus :: later) (.chain operand rest) left

/-- The first tokens are read as the expression, and the second are left. -/
inductive ExprReads (ctx : Context) : List Token → Expr → List Token → Prop where
  | number {tokens left : List Token} {e : NumExpr} (sum : NumReads ctx tokens e left) :
      ExprReads ctx tokens (.number e) left
  | string {tokens left : List Token} {e : StringExpr} (text : StringReads ctx tokens e left) :
      ExprReads ctx tokens (.string e) left

/-! ## Every reading follows the rules -/

/-- If the reading succeeds, its tree and the tokens that it left are related. -/
def Reading.Follows {α : Type} {before : List Token} (r : Reading α before)
    (reads : α → List Token → Prop) : Prop :=
  ∀ ⦃tree⦄, r.outcome = .ok tree → reads tree r.rest

namespace Reading.Follows

variable {α β : Type} {before later : List Token} {r : Reading α later} {e : SyntaxError}
variable {reads : α → List Token → Prop} {reads' : β → List Token → Prop}

theorem of_error (h : r.outcome = .error e) : r.Follows reads := by
  intro tree htree
  rw [h] at htree
  cases htree

/-- A reading of later tokens, seen from an earlier place. -/
theorem within (hr : r.Follows reads) (f : α → β)
    (hreads : ∀ tree left, reads tree left → reads' (f tree) left) (h : later <:+ before) :
    ((r.map f).within h).Follows reads' := by
  intro tree htree
  change r.outcome.map f = .ok tree at htree
  cases hout : r.outcome with
  | error e =>
    rw [hout] at htree
    cases htree
  | ok inner =>
    rw [hout] at htree
    cases htree
    exact hreads inner _ (hr hout)

end Reading.Follows

section numeric

variable {ctx : Context} {tokens : List Token}

theorem NumExpr.follows_of_term (hterm : (Term.read ctx tokens).Follows (TermReads ctx tokens))
    (hrest : ∀ later : List Token, later.length < tokens.length →
      (NumExpr.read ctx later).Follows (NumReads ctx later)) :
    (NumExpr.read ctx tokens).Follows (NumReads ctx tokens) := by
  rw [NumExpr.read]
  split
  case h_1 => exact .of_error rfl
  case h_2 heq =>
    rw [heq] at hterm
    rintro tree ⟨⟩
    exact .single (hterm rfl) trivial
  case h_3 term sign rest hsuffix heq =>
    rw [heq] at hterm
    have hlater : rest.length < tokens.length := hsuffix.length_le
    split
    case h_1 hop =>
      rintro tree ⟨⟩
      exact .single (hterm rfl) hop
    case h_2 op hop =>
      exact (hrest rest hlater).within _ (fun e left more => .chain (hterm rfl) hop more) _

theorem Term.follows_of_factor
    (hfactor : (Factor.read ctx tokens).Follows (FactorReads ctx tokens))
    (hrest : ∀ later : List Token, later.length < tokens.length →
      (Term.read ctx later).Follows (TermReads ctx later)) :
    (Term.read ctx tokens).Follows (TermReads ctx tokens) := by
  rw [Term.read]
  split
  case h_1 => exact .of_error rfl
  case h_2 heq =>
    rw [heq] at hfactor
    rintro tree ⟨⟩
    exact .single (hfactor rfl) trivial
  case h_3 factor sign rest hsuffix heq =>
    rw [heq] at hfactor
    have hlater : rest.length < tokens.length := hsuffix.length_le
    split
    case h_1 hop =>
      rintro tree ⟨⟩
      exact .single (hfactor rfl) hop
    case h_2 op hop =>
      exact (hrest rest hlater).within _ (fun e left more => .chain (hfactor rfl) hop more) _

/-- A literal is read as the number that its text stands for. -/
theorem Factor.follows_number {before : List Token} {r : Reading Factor before} {sign : String}
    {token : Token} {reads : Factor → List Token → Prop}
    (hout : r.outcome = (token.number sign).map Factor.literal)
    (hreads : ∀ n, token.number sign = .ok n → reads (.literal n) r.rest) : r.Follows reads := by
  intro tree htree
  rw [hout] at htree
  cases hn : token.number sign with
  | error e =>
    rw [hn] at htree
    cases htree
  | ok n =>
    rw [hn] at htree
    cases htree
    exact hreads n hn

theorem Factor.follows_of_num
    (hfactor : ∀ later : List Token, later.length < tokens.length →
      (Factor.read ctx later).Follows (FactorReads ctx later))
    (hnum : ∀ later : List Token, later.length < tokens.length →
      (NumExpr.read ctx later).Follows (NumReads ctx later)) :
    (Factor.read ctx tokens).Follows (FactorReads ctx tokens) := by
  rw [Factor.read.eq_def]
  split
  case h_1 => exact .of_error rfl
  case h_2 token rest =>
    split
    case h_1 hkind =>
      exact Factor.follows_number rfl fun n hn => .literal (by simp [Token.isNumber, hkind]) hn
    case h_2 hkind =>
      exact Factor.follows_number rfl fun n hn => .literal (by simp [Token.isNumber, hkind]) hn
    case h_3 hkind =>
      split
      case h_1 => exact .of_error rfl
      case h_2 next later =>
        split
        case isTrue hnumber =>
          exact Factor.follows_number rfl fun n hn => .signed hkind hnumber hn
        case isFalse hnumber =>
          rw [Bool.not_eq_true] at hnumber
          exact (hfactor (next :: later) (Nat.lt_succ_self _)).within _
            (fun inner left factor => .negate hkind hnumber factor) _
    case h_4 hkind =>
      have hinner := hnum rest (Nat.lt_succ_self _)
      split
      case h_1 => exact .of_error rfl
      case h_2 => exact .of_error rfl
      case h_3 inner close left _ heq =>
        rw [heq] at hinner
        split
        case isTrue hclose =>
          rintro tree ⟨⟩
          exact .paren hkind (hinner rfl) hclose
        case isFalse => exact .of_error rfl
    case h_5 hkind =>
      split
      case h_1 => exact .of_error rfl
      case h_2 ref href =>
        rintro tree ⟨⟩
        exact .reference hkind href
    case h_6 => exact .of_error rfl

/-- The readers of numeric expressions follow the rules. -/
theorem numeric_follows (ctx : Context) (tokens : List Token) :
    (NumExpr.read ctx tokens).Follows (NumReads ctx tokens) ∧
      (Term.read ctx tokens).Follows (TermReads ctx tokens) ∧
      (Factor.read ctx tokens).Follows (FactorReads ctx tokens) := by
  induction hn : tokens.length using Nat.strongRecOn generalizing tokens with
  | ind n ih =>
    subst hn
    have hfactor := Factor.follows_of_num (fun later h => (ih _ h later rfl).2.2)
      (fun later h => (ih _ h later rfl).1)
    have hterm := Term.follows_of_factor hfactor (fun later h => (ih _ h later rfl).2.1)
    exact ⟨NumExpr.follows_of_term hterm (fun later h => (ih _ h later rfl).1), hterm, hfactor⟩

end numeric

theorem StringExpr.follows_read (ctx : Context) (tokens : List Token) :
    (StringExpr.read ctx tokens).Follows (StringReads ctx tokens) := by
  fun_induction StringExpr.read ctx tokens with
  | case1 => exact .of_error rfl
  | case2 => exact .of_error rfl
  | case3 token operand hoperand =>
    rintro tree ⟨⟩
    exact .single hoperand trivial
  | case4 token operand hoperand next later hplus ih =>
    exact ih.within _ (fun rest left more => .chain hoperand hplus more)
      (List.suffix_append [token, next] later)
  | case5 token operand hoperand next later hplus =>
    rintro tree ⟨⟩
    exact .single hoperand hplus

/-- A reading of an expression that succeeds follows the rules. -/
theorem Expr.exprReads_of_read {ctx : Context} {kind : Kind} {tokens : List Token} {e : Expr}
    (h : (Expr.read ctx kind tokens).outcome = .ok e) :
    ExprReads ctx tokens e (Expr.read ctx kind tokens).rest := by
  have hfollows : (Expr.read ctx kind tokens).Follows (ExprReads ctx tokens) := by
    unfold Expr.read
    split
    case h_1 => exact .of_error rfl
    case h_2 => exact .of_error rfl
    case h_3 =>
      split
      case isFalse => exact .of_error rfl
      case isTrue =>
        cases kind with
        | number =>
          exact (numeric_follows ctx tokens).1.within _ (fun _ _ sum => .number sum)
            List.suffix_rfl
        | string =>
          exact (StringExpr.follows_read ctx tokens).within _ (fun _ _ text => .string text)
            List.suffix_rfl
  exact hfollows h

end LineScript
