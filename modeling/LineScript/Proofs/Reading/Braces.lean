import LineScript.Proofs.Reading.Leaves

/-!
# Readers that meet no brace

Nothing but a block has braces. A reader of an expression or of a statement that holds no
statements takes no brace, and if it fails, its error is not about a brace that has no partner
(`Reading.Braceless`).
-/

namespace LineScript

namespace Token

variable {token : Token}

def isBrace (token : Token) : Bool :=
  token.kind = .leftBrace || token.kind = .rightBrace

theorem isBrace_eq_false_iff :
    token.isBrace = false ↔ token.kind ≠ .leftBrace ∧ token.kind ≠ .rightBrace := by
  simp [isBrace]

theorem isBrace_of_kind {kind : TokenKind} (h : token.kind = kind)
    (hkind : kind ≠ .leftBrace ∧ kind ≠ .rightBrace) : token.isBrace = false := by
  subst h
  exact isBrace_eq_false_iff.mpr hkind

end Token

/-- The error is about a brace that has no partner. -/
def SyntaxError.isBrace (e : SyntaxError) : Bool :=
  match e.cause with
  | .missingClosingBrace | .unmatchedClosingBrace => true
  | _ => false

theorem Ends.filter_isBrace {tokens left : List Token} (h : Ends tokens left) :
    left.filter Token.isBrace = tokens.filter Token.isBrace := by
  cases h with
  | input => rfl
  | line hline => rw [List.filter_cons_of_neg (by simp [Token.isBrace, hline])]
  | before => rfl

/-- No brace was taken, and if the reading failed, then not because of a brace. -/
structure Reading.Braceless {α : Type} {before : List Token} (r : Reading α before) : Prop where
  kept : r.rest.filter Token.isBrace = before.filter Token.isBrace
  error : ∀ ⦃e⦄, r.outcome = .error e → e.isBrace = false

namespace Reading.Braceless

variable {α β : Type} {before later rest : List Token} {token : Token} {e : SyntaxError}

theorem stay {outcome : Except SyntaxError α} (h : ∀ ⦃e⦄, outcome = .error e → e.isBrace = false) :
    (Reading.stay before outcome).Braceless :=
  ⟨rfl, h⟩

theorem stay_ok (tree : α) : (Reading.stay before (.ok tree)).Braceless :=
  stay nofun

theorem stay_error (h : e.isBrace = false) :
    (Reading.stay before (.error e : Except SyntaxError α)).Braceless := by
  refine stay ?_
  rintro e' ⟨⟩
  exact h

theorem map {r : Reading α before} (h : r.Braceless) (f : α → β) : (r.map f).Braceless := by
  refine ⟨h.kept, fun e he => ?_⟩
  cases hout : r.outcome with
  | ok tree =>
    simp only [Reading.map, hout] at he
    cases he
  | error e' =>
    simp only [Reading.map, hout] at he
    cases he
    exact h.error hout

theorem within {r : Reading α later} (h : r.Braceless) (hsuffix : later <:+ before)
    (hkept : later.filter Token.isBrace = before.filter Token.isBrace) :
    (r.within hsuffix).Braceless :=
  ⟨h.kept.trans hkept, h.error⟩

theorem behind {r : Reading α rest} (h : r.Braceless) (htoken : token.isBrace = false) :
    (r.behind token).Braceless :=
  h.within _ (List.filter_cons_of_neg (by simp [htoken])).symm

end Reading.Braceless

/-! ## Expressions -/

section expressions

variable {ctx : Context} {kind : Kind} {token : Token} {tokens rest : List Token} {e : SyntaxError}

theorem Token.isBrace_of_number_error {sign : String} (h : token.number sign = .error e) :
    e.isBrace = false := by
  simp only [Token.number] at h
  split at h
  · cases h
  · cases h
    rfl

theorem Context.isBrace_of_reference_error (h : ctx.reference kind token = .error e) :
    e.isBrace = false := by
  unfold Context.reference at h
  split at h
  · cases h
    rfl
  · split at h
    · cases h
    · cases h
      rfl

/-- A chain takes no brace if its parts take none and no operator is a brace. -/
theorem Reader.Chains.braceless {α β : Type} {part : Reader α} {whole : Reader β}
    {op? : TokenKind → Option Operator} {single : α → β} {chain : α → Operator → β → β}
    {stop : Position} (h : part.Chains op? single chain whole)
    (hbrace : op? .leftBrace = none ∧ op? .rightBrace = none) (hinput : op? .endOfInput = none)
    (hpart : (part stop tokens).Braceless)
    (hlater : ∀ later : List Token, later.length < tokens.length →
      (whole stop later).Braceless) : (whole stop tokens).Braceless := by
  cases hout : (part stop tokens).outcome with
  | error e =>
    obtain ⟨houtcome, hrest⟩ := h.failed ⟨hout, rfl⟩
    refine ⟨hrest ▸ hpart.kept, fun e' he' => ?_⟩
    cases houtcome.symm.trans he'
    exact hpart.error hout
  | ok tree =>
    cases hop : op? (Token.frontOf stop (part stop tokens).rest).kind with
    | none =>
      obtain ⟨houtcome, hrest⟩ := h.ended ⟨hout, rfl⟩ hop
      refine ⟨hrest ▸ hpart.kept, fun e' he' => ?_⟩
      cases houtcome.symm.trans he'
    | some op =>
      have hkept := hpart.kept
      have hsuffix := (part stop tokens).suffix
      cases hleft : (part stop tokens).rest with
      | nil =>
        rw [hleft, Token.frontOf_nil, Token.endAt, hinput] at hop
        cases hop
      | cons sign later =>
        rw [hleft] at hop hkept hsuffix
        have hsign : sign.isBrace = false := by
          refine Token.isBrace_eq_false_iff.mpr ⟨fun hkind => ?_, fun hkind => ?_⟩
          · rw [Token.frontOf_cons, hkind, hbrace.1] at hop
            cases hop
          · rw [Token.frontOf_cons, hkind, hbrace.2] at hop
            cases hop
        rw [List.filter_cons_of_neg (by simp [hsign])] at hkept
        have hmore := (hlater later hsuffix.length_le).map (chain tree op)
        obtain ⟨houtcome, hrest⟩ := h.goesOn ⟨hout, hleft⟩ hop ⟨rfl, rfl⟩
        refine ⟨hrest ▸ hmore.kept.trans hkept, fun e' he' => ?_⟩
        exact hmore.error (houtcome.symm.trans he')

theorem Factor.braceless_of_number (rest : List Token) (sign : String) (token : Token) :
    (Reading.stay rest ((token.number sign).map Factor.literal)).Braceless := by
  cases hnumber : token.number sign with
  | ok n => exact .stay_ok _
  | error e => exact .stay_error (Token.isBrace_of_number_error hnumber)

theorem Factor.braceless_dash {token : Token} {rest : List Token} (hkind : token.kind = .dash)
    (hrest : (Factor.read ctx rest).Braceless) : (Factor.read ctx (token :: rest)).Braceless := by
  have hdash : token.isBrace = false := Token.isBrace_of_kind hkind (by decide)
  rw [Factor.read.eq_def]
  simp only [hkind]
  split
  case h_1 => exact (Reading.Braceless.stay_error rfl).behind hdash
  case h_2 next later =>
    split
    case isTrue hnumber =>
      have hnext : next.isBrace = false := by
        obtain hkind | hkind := Token.integer_or_float hnumber
        · exact Token.isBrace_of_kind hkind (by decide)
        · exact Token.isBrace_of_kind hkind (by decide)
      exact ((braceless_of_number later "-" next).behind hnext).behind hdash
    case isFalse => exact (hrest.map _).behind hdash

theorem Factor.braceless_paren {token : Token} {rest : List Token}
    (hkind : token.kind = .leftParen) (hinner : (NumExpr.read ctx rest).Braceless) :
    (Factor.read ctx (token :: rest)).Braceless := by
  have hparen : token.isBrace = false := Token.isBrace_of_kind hkind (by decide)
  rw [Factor.read.eq_def]
  simp only [hkind]
  split
  case h_1 heq =>
    rw [heq] at hinner
    refine Reading.Braceless.behind ⟨hinner.kept, fun e' he' => ?_⟩ hparen
    exact hinner.error (by cases he'; rfl)
  case h_2 heq =>
    rw [heq] at hinner
    refine Reading.Braceless.behind ⟨hinner.kept, ?_⟩ hparen
    rintro e' ⟨⟩
    rfl
  case h_3 inner close left hsuffix heq =>
    rw [heq] at hinner
    split
    case isTrue hclose =>
      have hkept := hinner.kept
      have hbrace : close.isBrace = false := Token.isBrace_of_kind hclose (by decide)
      rw [List.filter_cons_of_neg (by simp [hbrace])] at hkept
      refine Reading.Braceless.behind ⟨hkept, ?_⟩ hparen
      rintro e' ⟨⟩
    case isFalse =>
      refine Reading.Braceless.behind ⟨hinner.kept, ?_⟩ hparen
      rintro e' ⟨⟩
      rfl

theorem Factor.braceless_of_num
    (hfactor : ∀ later : List Token, later.length < tokens.length →
      (Factor.read ctx later).Braceless)
    (hnum : ∀ later : List Token, later.length < tokens.length →
      (NumExpr.read ctx later).Braceless) : (Factor.read ctx tokens).Braceless := by
  cases tokens with
  | nil =>
    rw [Factor.read.eq_def]
    exact .stay_error rfl
  | cons token rest =>
    have hrest : rest.length < (token :: rest).length := Nat.lt_succ_self _
    by_cases hdash : token.kind = .dash
    · exact braceless_dash hdash (hfactor rest hrest)
    by_cases hparen : token.kind = .leftParen
    · exact braceless_paren hparen (hnum rest hrest)
    rw [Factor.read.eq_def]
    simp only
    split
    case h_1 hkind =>
      exact (braceless_of_number rest "" token).behind (Token.isBrace_of_kind hkind (by decide))
    case h_2 hkind =>
      exact (braceless_of_number rest "" token).behind (Token.isBrace_of_kind hkind (by decide))
    case h_3 hkind => exact absurd hkind hdash
    case h_4 hkind => exact absurd hkind hparen
    case h_5 hkind =>
      split
      case h_1 e href => exact .stay_error (Context.isBrace_of_reference_error href)
      case h_2 =>
        exact (Reading.Braceless.stay_ok _).behind (Token.isBrace_of_kind hkind (by decide))
    case h_6 => exact .stay_error rfl

theorem NumExpr.braceless_read (ctx : Context) (tokens : List Token) :
    (NumExpr.read ctx tokens).Braceless := by
  -- The three readers call each other with fewer tokens.
  have hall (tokens : List Token) : (NumExpr.read ctx tokens).Braceless ∧
      (Term.read ctx tokens).Braceless ∧ (Factor.read ctx tokens).Braceless := by
    induction hn : tokens.length using Nat.strongRecOn generalizing tokens with
    | ind n ih =>
      subst hn
      have hfactor := Factor.braceless_of_num (fun later h => (ih _ h later rfl).2.2)
        (fun later h => (ih _ h later rfl).1)
      have hterm : (Term.read ctx tokens).Braceless :=
        (Term.chains_reader ctx.resolve?).braceless ⟨rfl, rfl⟩ rfl hfactor
          fun later h => (ih _ h later rfl).2.1
      have hnum : (NumExpr.read ctx tokens).Braceless :=
        (NumExpr.chains_reader ctx.resolve?).braceless ⟨rfl, rfl⟩ rfl hterm
          fun later h => (ih _ h later rfl).1
      exact ⟨hnum, hterm, hfactor⟩
  exact (hall tokens).1

theorem StringOperand.isBrace_of_read_error (h : StringOperand.read ctx token = .error e) :
    e.isBrace = false := by
  unfold StringOperand.read at h
  split at h
  case h_1 => cases h
  case h_2 =>
    cases href : ctx.reference .string token with
    | ok ref =>
      rw [href] at h
      cases h
    | error e' =>
      rw [href] at h
      cases h
      exact Context.isBrace_of_reference_error href
  case h_3 =>
    cases h
    rfl

theorem StringOperand.isBrace_of_read {operand : StringOperand}
    (h : StringOperand.read ctx token = .ok operand) : token.isBrace = false := by
  unfold StringOperand.read at h
  split at h
  case h_1 hkind => exact Token.isBrace_of_kind hkind (by decide)
  case h_2 hkind => exact Token.isBrace_of_kind hkind (by decide)
  case h_3 => cases h

theorem StringExpr.braceless_read (ctx : Context) (tokens : List Token) :
    (StringExpr.read ctx tokens).Braceless := by
  fun_induction StringExpr.read ctx tokens with
  | case1 => exact .stay_error rfl
  | case2 _ _ e herror => exact .stay_error (StringOperand.isBrace_of_read_error herror)
  | case3 token operand hoperand =>
    exact (Reading.Braceless.stay_ok _).behind (StringOperand.isBrace_of_read hoperand)
  | case4 token operand hoperand next later hplus ih =>
    exact ((ih.map _).behind (Token.isBrace_of_kind hplus (by decide))).behind
      (StringOperand.isBrace_of_read hoperand)
  | case5 token operand hoperand next later =>
    exact (Reading.Braceless.stay_ok _).behind (StringOperand.isBrace_of_read hoperand)

theorem Context.isBrace_of_kindOf?_error (h : ctx.kindOf? token = .error e) :
    e.isBrace = false := by
  unfold Context.kindOf? at h
  split at h
  case h_6 =>
    split at h
    · cases h
      rfl
    · cases h
  all_goals cases h

theorem Expr.braceless_read (ctx : Context) (kind : Kind) (tokens : List Token) :
    (Expr.read ctx kind tokens).Braceless := by
  unfold Expr.read
  split
  case h_1 e herror => exact .stay_error (Context.isBrace_of_kindOf?_error herror)
  case h_2 => exact .stay_error rfl
  case h_3 =>
    split
    case isFalse => exact .stay_error rfl
    case isTrue =>
      cases kind with
      | number => exact (NumExpr.braceless_read ctx tokens).map _
      | string => exact (StringExpr.braceless_read ctx tokens).map _

end expressions

/-! ## Statements -/

section statements

variable {site : Site} {a : Arena} {first : Token} {tokens : List Token}

theorem Token.filter_isBrace_tail (h : (Token.frontOf site.stop tokens).isBrace = false) :
    tokens.tail.filter Token.isBrace = tokens.filter Token.isBrace := by
  cases tokens with
  | nil => rfl
  | cons token rest => exact (List.filter_cons_of_neg (by simpa using h)).symm

theorem Statement.braceless_readInitial (ctx : Context) (kind : Kind) (tokens : List Token) :
    (readInitial ctx kind tokens).Braceless := by
  cases tokens with
  | nil => exact .stay_ok _
  | cons token rest =>
    simp only [readInitial]
    split
    case isTrue hequals =>
      exact ((Expr.braceless_read ctx kind rest).map _).behind
        (Token.isBrace_of_kind hequals (by decide))
    case isFalse => exact .stay_ok _

theorem Statement.braceless_readDeclare (site : Site) (a : Arena) (position : Position)
    (tokens : List Token) : (readDeclare site a position tokens).toReading.Braceless := by
  unfold readDeclare
  simp only [Context.front_eq]
  split
  case isFalse => exact .stay_error rfl
  case isTrue hname =>
    have htail := Token.filter_isBrace_tail (Token.isBrace_of_kind hname (by decide))
    split
    case h_1 => exact Reading.Braceless.within (.stay_error rfl) (List.tail_suffix tokens) htail
    case h_2 kind htype =>
      have htype' : (Token.frontOf site.stop tokens.tail).isBrace = false :=
        Token.isBrace_of_kind (typeWord?_eq_some_iff.mp htype) (by cases kind <;> decide)
      have hlater := (Token.filter_isBrace_tail htype').trans htail
      have hsuffix : tokens.tail.tail <:+ tokens :=
        (List.tail_suffix tokens.tail).trans (List.tail_suffix tokens)
      split
      case h_1 => exact Reading.Braceless.within (.stay_error rfl) hsuffix hlater
      case h_2 =>
        exact ((braceless_readInitial (site.context a) kind tokens.tail.tail).map _).within hsuffix
          hlater

theorem Statement.braceless_readAssign (ctx : Context) (target : Token) (tokens : List Token) :
    (readAssign ctx target tokens).Braceless := by
  unfold readAssign
  split
  case h_1 => exact .stay_error rfl
  case h_2 binding _ =>
    split
    case h_1 => exact .stay_error rfl
    case h_2 compound hop =>
      cases tokens with
      | nil => cases hop
      | cons op rest =>
        have hbrace : op.isBrace = false := by
          refine Token.isBrace_eq_false_iff.mpr ⟨?_, ?_⟩ <;>
          · intro hkind
            simp only [Context.front, hkind] at hop
            cases hop
        exact ((Expr.braceless_read ctx binding.kind rest).map _).within _
          (List.filter_cons_of_neg (by simp [hbrace])).symm

theorem Statement.braceless_readPrint (ctx : Context) (position : Position) (newline : Bool)
    (tokens : List Token) : (readPrint ctx position newline tokens).Braceless := by
  unfold readPrint
  simp only
  split
  case isTrue => exact .stay_ok _
  case isFalse =>
    split
    case h_1 e herror => exact .stay_error (Context.isBrace_of_kindOf?_error herror)
    case h_2 => exact .stay_error rfl
    case h_3 kind _ => exact (Expr.braceless_read ctx kind tokens).map _

theorem Statement.braceless_readUnfinished (site : Site) (a : Arena) (first : Token)
    (tokens : List Token) : (readUnfinished site a first tokens).toReading.Braceless := by
  unfold readUnfinished
  split
  case h_1 => exact braceless_readDeclare site a first.position tokens
  case h_2 => exact braceless_readAssign (site.context a) first tokens
  case h_3 => exact braceless_readPrint (site.context a) first.position false tokens
  case h_4 => exact braceless_readPrint (site.context a) first.position true tokens
  case h_5 => exact .stay_error rfl

/-- A statement that is no block takes no brace, and it does not fail because of one. -/
theorem Statement.braceless_read (site : Site) (a : Arena) (tokens : List Token)
    (h : first.StartsLeaf) : (Statement.read site a first tokens).toReading.Braceless := by
  have hunfinished := braceless_readUnfinished site a first tokens
  rw [read_eq_readUnfinished h]
  generalize readUnfinished site a first tokens = r at hunfinished ⊢
  cases hout : r.finish.outcome with
  | ok statement =>
    obtain ⟨-, ends⟩ := StatementReading.finish_eq_ok_iff.mp ⟨hout, rfl⟩
    refine ⟨ends.filter_isBrace.trans hunfinished.kept, fun e he => ?_⟩
    cases hout.symm.trans he
  | error e =>
    obtain ⟨hrest, hcause⟩ := StatementReading.finish_eq_error hout
    refine ⟨(congrArg (List.filter Token.isBrace) hrest).trans hunfinished.kept, fun e' he' => ?_⟩
    cases hout.symm.trans he'
    obtain herror | ⟨found, rest, -, -, rfl⟩ := hcause
    · exact hunfinished.error herror
    · rfl

end statements

end LineScript
