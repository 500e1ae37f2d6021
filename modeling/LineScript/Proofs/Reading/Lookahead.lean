import LineScript.Proofs.Reading.Expressions

/-!
# One token of lookahead

A reader of expressions sees the tokens that it takes and one more. If other tokens
stand behind that one, or the input ends elsewhere, it gives the same answer
(`Reader.Answers`). An error is reported at a token that was taken or at the one that
was looked at, and it costs no more than the statement. No reader takes a line end: that
is left to the end of the statement. All this is proved of a reader by finding for any
tokens the part that it takes (`Reader.Foresees`).
-/

namespace LineScript

/-- The token at the front, which is the end of input if no token is left. -/
def Token.frontOf (stop : Position) (tokens : List Token) : Token :=
  tokens.headD (Token.endAt stop)

namespace Token

variable {stop stop' : Position} {token : Token} {tokens taken rest rest' : List Token}

@[simp] theorem frontOf_nil : frontOf stop [] = endAt stop := rfl

@[simp] theorem frontOf_cons : frontOf stop (token :: tokens) = token := rfl

theorem frontOf_append (h : frontOf stop rest = frontOf stop' rest') :
    frontOf stop (taken ++ rest) = frontOf stop' (taken ++ rest') := by
  cases taken with
  | nil => exact h
  | cons => rfl

/-- Only the end of input can be seen without being there. -/
theorem exists_cons_of_frontOf (h : frontOf stop tokens = token)
    (hkind : token.kind ≠ .endOfInput) : ∃ later, tokens = token :: later := by
  cases tokens with
  | nil => exact absurd (congrArg Token.kind h).symm hkind
  | cons first later => exact ⟨later, by rw [← h]; rfl⟩

end Token

@[simp] theorem Context.front_eq (ctx : Context) (tokens : List Token) :
    ctx.front tokens = Token.frontOf ctx.stop tokens := by
  cases tokens <;> rfl

/-- The error is reported at one of the tokens. -/
def SyntaxError.At (e : SyntaxError) (tokens : List Token) : Prop :=
  ∃ token ∈ tokens, e.position = token.position

theorem SyntaxError.At.mono {e : SyntaxError} {tokens tokens' : List Token} (h : e.At tokens)
    (hsub : tokens ⊆ tokens') : e.At tokens' := by
  obtain ⟨token, htoken, hposition⟩ := h
  exact ⟨token, hsub htoken, hposition⟩

/-- Whether a declaration failed so early that its name is not declared. -/
def SyntaxError.declaresNothing (e : SyntaxError) : Bool :=
  match e.cause with
  | .malformedDeclaration _ | .redeclaration _ => true
  | _ => false

theorem SyntaxError.declaresNothing_of_abortsBlock {e : SyntaxError} (h : e.abortsBlock = true) :
    e.declaresNothing = true := by
  unfold abortsBlock at h
  unfold declaresNothing
  split at h
  case h_1 hcause => rw [hcause]
  case h_2 => cases h

/-- The error is reported at one of the tokens, and it belongs to an expression or to the
end of a statement. -/
structure SyntaxError.MinorAt (e : SyntaxError) (tokens : List Token) : Prop where
  located : e.At tokens
  minor : e.declaresNothing = false

theorem SyntaxError.MinorAt.mono {e : SyntaxError} {tokens tokens' : List Token}
    (h : e.MinorAt tokens) (hsub : tokens ⊆ tokens') : e.MinorAt tokens' :=
  ⟨h.located.mono hsub, h.minor⟩

theorem SyntaxError.MinorAt.goesOn {e : SyntaxError} {tokens : List Token}
    (h : e.MinorAt tokens) : e.abortsBlock = false := by
  cases haborts : e.abortsBlock with
  | false => rfl
  | true => exact (declaresNothing_of_abortsBlock haborts).symm.trans h.minor

theorem SyntaxError.minorAt_of_mem {e : SyntaxError} {token : Token} {tokens : List Token}
    (h : e.position = token.position ∧ e.declaresNothing = false) (htoken : token ∈ tokens) :
    e.MinorAt tokens :=
  ⟨⟨token, htoken, h.1⟩, h.2⟩

/-- The reading ends with the outcome and leaves the tokens. -/
structure Reading.Gives {α : Type} {before : List Token} (r : Reading α before)
    (outcome : Except SyntaxError α) (left : List Token) : Prop where
  outcome_eq : r.outcome = outcome
  rest_eq : r.rest = left

/-- A way to read that still has to be told where the input ends. -/
abbrev Reader (α : Type) := (stop : Position) → (tokens : List Token) → Reading α tokens

namespace Reader

variable {α β : Type}

/-- The reader takes the tokens and gives the outcome whenever `next` comes behind them. -/
structure Answers (read : Reader α) (taken : List Token) (next : Token)
    (outcome : Except SyntaxError α) : Prop where
  inLine : ∀ token ∈ taken, token.kind ≠ .newline
  minor : ∀ ⦃e⦄, outcome = .error e → e.MinorAt (taken ++ [next])
  gives : ∀ (stop : Position) (rest : List Token), Token.frontOf stop rest = next →
    (read stop (taken ++ rest)).Gives outcome rest

/-- What the reader does with these tokens is seen from the part that it takes and one
token more. -/
def Foresees (read : Reader α) (stop : Position) (tokens : List Token) : Prop :=
  ∃ taken rest outcome, tokens = taken ++ rest ∧
    read.Answers taken (Token.frontOf stop rest) outcome

section foresees

variable {read : Reader α} {stop : Position} {tokens : List Token}

/-- A reader that leaves the tokens where they are foresees what it does. -/
theorem Foresees.stay (outcome : Except SyntaxError α)
    (hminor : ∀ e, outcome = .error e →
      e.position = (Token.frontOf stop tokens).position ∧ e.declaresNothing = false)
    (h : ∀ stop' tokens', Token.frontOf stop' tokens' = Token.frontOf stop tokens →
      (read stop' tokens').Gives outcome tokens') : read.Foresees stop tokens := by
  refine ⟨[], tokens, outcome, rfl, by simp, ?_, h⟩
  intro e he
  exact SyntaxError.minorAt_of_mem (hminor e he) (List.mem_singleton_self _)

/-- A reader that fails at the front token and leaves it there. -/
theorem Foresees.fail (e : SyntaxError)
    (hminor : e.position = (Token.frontOf stop tokens).position ∧ e.declaresNothing = false)
    (h : ∀ stop' tokens', Token.frontOf stop' tokens' = Token.frontOf stop tokens →
      (read stop' tokens').Gives (.error e) tokens') : read.Foresees stop tokens := by
  refine .stay (.error e) ?_ h
  rintro _ ⟨⟩
  exact hminor

end foresees

/-- A reader that does what another one does behind some tokens, and then changes the
tree. -/
theorem Answers.map {read : Reader α} {whole : Reader β} {taken before : List Token}
    {next : Token} {outcome : Except SyntaxError α} (h : read.Answers taken next outcome)
    (f : α → β) (hline : ∀ token ∈ before, token.kind ≠ .newline)
    (hwhole : ∀ stop rest, Token.frontOf stop rest = next →
      (read stop (taken ++ rest)).Gives outcome rest →
      (whole stop (before ++ (taken ++ rest))).Gives (outcome.map f) rest) :
    whole.Answers (before ++ taken) next (outcome.map f) where
  inLine := by
    intro token htoken
    exact (List.mem_append.mp htoken).elim (hline token) (h.inLine token)
  minor e he := by
    cases outcome with
    | ok tree => cases he
    | error e' =>
      cases he
      exact (h.minor rfl).mono (by simp)
  gives stop rest hnext := by
    rw [List.append_assoc]
    exact hwhole stop rest hnext (h.gives stop rest hnext)

/-! ## Chains -/

/-- `whole` reads one part, or a part, an operator, and what `whole` reads behind it. -/
structure Chains (part : Reader α) (op? : TokenKind → Option Operator) (single : α → β)
    (chain : α → Operator → β → β) (whole : Reader β) : Prop where
  failed : ∀ {stop tokens e left}, (part stop tokens).Gives (.error e) left →
    (whole stop tokens).Gives (.error e) left
  ended : ∀ {stop tokens tree left}, (part stop tokens).Gives (.ok tree) left →
    op? (Token.frontOf stop left).kind = none → (whole stop tokens).Gives (.ok (single tree)) left
  goesOn : ∀ {stop tokens tree sign later op outcome left},
    (part stop tokens).Gives (.ok tree) (sign :: later) → op? sign.kind = some op →
    (whole stop later).Gives outcome left →
    (whole stop tokens).Gives (outcome.map (chain tree op)) left

/-- A chain foresees what it does if its parts do. -/
theorem Chains.foresees {part : Reader α} {whole : Reader β} {op? : TokenKind → Option Operator}
    {single : α → β} {chain : α → Operator → β → β} {stop : Position} {tokens : List Token}
    (h : Chains part op? single chain whole) (hline : op? .newline = none)
    (hinput : op? .endOfInput = none) (hpart : part.Foresees stop tokens)
    (hlater : ∀ later : List Token, later.length < tokens.length → whole.Foresees stop later) :
    whole.Foresees stop tokens := by
  obtain ⟨taken, rest, outcome, rfl, hanswers⟩ := hpart
  cases outcome with
  | error e =>
    refine ⟨taken, rest, .error e, rfl, hanswers.inLine, ?_, ?_⟩
    · rintro _ ⟨⟩
      exact hanswers.minor rfl
    · exact fun stop' rest' hnext => h.failed (hanswers.gives stop' rest' hnext)
  | ok tree =>
    cases hop : op? (Token.frontOf stop rest).kind with
    | none =>
      refine ⟨taken, rest, .ok (single tree), rfl, hanswers.inLine, by simp, ?_⟩
      intro stop' rest' hnext
      rw [← hnext] at hop
      exact h.ended (hanswers.gives stop' rest' hnext) hop
    | some op =>
      cases rest with
      | nil =>
        rw [Token.frontOf_nil, Token.endAt, hinput] at hop
        cases hop
      | cons sign later =>
        rw [Token.frontOf_cons] at hop
        obtain ⟨more, left, outcome, rfl, hmore⟩ := hlater later (by simp; omega)
        have hsign : ∀ token ∈ taken ++ [sign], token.kind ≠ .newline := by
          intro token htoken hnewline
          obtain htoken | htoken := List.mem_append.mp htoken
          · exact hanswers.inLine token htoken hnewline
          · rw [← List.mem_singleton.mp htoken, hnewline, hline] at hop
            cases hop
        refine ⟨taken ++ [sign] ++ more, left, _, by simp, hmore.map (chain tree op) hsign ?_⟩
        intro stop' rest' _ hgives
        rw [List.append_assoc taken]
        exact h.goesOn (hanswers.gives stop' (sign :: (more ++ rest')) rfl) hop hgives

end Reader

/-- A use of a variable fails at the token that names it. -/
theorem Context.minor_of_reference {ctx : Context} {kind : Kind} {token : Token}
    {e : SyntaxError} (h : ctx.reference kind token = .error e) :
    e.position = token.position ∧ e.declaresNothing = false := by
  unfold Context.reference at h
  split at h
  · cases h
    exact ⟨rfl, rfl⟩
  · split at h
    · cases h
    · cases h
      exact ⟨rfl, rfl⟩

/-! ## Numeric expressions -/

section numeric

variable (names : String → Option Arena.Binding)

/-- The readers of expressions where the names have the given meaning. -/
def NumExpr.reader : Reader NumExpr := fun stop tokens => NumExpr.read ⟨names, stop⟩ tokens

def Term.reader : Reader Term := fun stop tokens => Term.read ⟨names, stop⟩ tokens

def Factor.reader : Reader Factor := fun stop tokens => Factor.read ⟨names, stop⟩ tokens

theorem NumExpr.chains_reader :
    (Term.reader names).Chains Operator.sum? .single .chain (NumExpr.reader names) where
  failed {stop tokens e left} h := by
    unfold NumExpr.reader
    unfold Term.reader at h
    rw [NumExpr.read]
    generalize Term.read ⟨names, stop⟩ tokens = r at h ⊢
    obtain ⟨outcome, rest, suffix⟩ := r
    obtain ⟨⟨⟩, ⟨⟩⟩ := h
    exact ⟨rfl, rfl⟩
  ended {stop tokens tree left} h hop := by
    unfold NumExpr.reader
    unfold Term.reader at h
    rw [NumExpr.read]
    generalize Term.read ⟨names, stop⟩ tokens = r at h ⊢
    obtain ⟨outcome, rest, suffix⟩ := r
    obtain ⟨⟨⟩, ⟨⟩⟩ := h
    cases rest with
    | nil => exact ⟨rfl, rfl⟩
    | cons sign later =>
      rw [Token.frontOf_cons] at hop
      simp only [hop]
      exact ⟨rfl, rfl⟩
  goesOn {stop tokens tree sign later op outcome left} h hop hlater := by
    unfold NumExpr.reader at hlater ⊢
    unfold Term.reader at h
    rw [NumExpr.read]
    generalize Term.read ⟨names, stop⟩ tokens = r at h ⊢
    obtain ⟨outcome, rest, suffix⟩ := r
    obtain ⟨⟨⟩, ⟨⟩⟩ := h
    obtain ⟨rfl, rfl⟩ := hlater
    simp only [hop]
    exact ⟨rfl, rfl⟩

theorem Term.chains_reader :
    (Factor.reader names).Chains Operator.product? .single .chain (Term.reader names) where
  failed {stop tokens e left} h := by
    unfold Term.reader
    unfold Factor.reader at h
    rw [Term.read]
    generalize Factor.read ⟨names, stop⟩ tokens = r at h ⊢
    obtain ⟨outcome, rest, suffix⟩ := r
    obtain ⟨⟨⟩, ⟨⟩⟩ := h
    exact ⟨rfl, rfl⟩
  ended {stop tokens tree left} h hop := by
    unfold Term.reader
    unfold Factor.reader at h
    rw [Term.read]
    generalize Factor.read ⟨names, stop⟩ tokens = r at h ⊢
    obtain ⟨outcome, rest, suffix⟩ := r
    obtain ⟨⟨⟩, ⟨⟩⟩ := h
    cases rest with
    | nil => exact ⟨rfl, rfl⟩
    | cons sign later =>
      rw [Token.frontOf_cons] at hop
      simp only [hop]
      exact ⟨rfl, rfl⟩
  goesOn {stop tokens tree sign later op outcome left} h hop hlater := by
    unfold Term.reader at hlater ⊢
    unfold Factor.reader at h
    rw [Term.read]
    generalize Factor.read ⟨names, stop⟩ tokens = r at h ⊢
    obtain ⟨outcome, rest, suffix⟩ := r
    obtain ⟨⟨⟩, ⟨⟩⟩ := h
    obtain ⟨rfl, rfl⟩ := hlater
    simp only [hop]
    exact ⟨rfl, rfl⟩

namespace Factor

variable {names} {stop : Position} {token next : Token} {tokens rest left : List Token}
variable {e : SyntaxError} {inner : NumExpr}

/-- The kinds of the tokens that a factor begins with. -/
def begins : TokenKind → Bool
  | .integer | .float | .dash | .leftParen | .identifier => true
  | _ => false

theorem reader_of_other (h : begins (Token.frontOf stop tokens).kind = false) :
    (reader names stop tokens).Gives
      (.error (.expected .numberOperand (Token.frontOf stop tokens))) tokens := by
  unfold reader
  cases tokens with
  | nil =>
    rw [Factor.read.eq_def]
    exact ⟨rfl, rfl⟩
  | cons token rest =>
    rw [Token.frontOf_cons] at h
    have hread : Factor.read ⟨names, stop⟩ (token :: rest) =
        .stay (token :: rest) (.error (.expected .numberOperand token)) := by
      rw [Factor.read.eq_def]
      simp only
      split
      case h_6 => rfl
      all_goals simp_all [begins]
    rw [hread]
    exact ⟨rfl, rfl⟩

theorem reader_of_number (h : token.isNumber = true) :
    (reader names stop (token :: rest)).Gives ((token.number "").map .literal) rest := by
  unfold reader
  rw [Factor.read.eq_def]
  obtain hkind | hkind := Token.integer_or_float h <;> simp only [hkind] <;> exact ⟨rfl, rfl⟩

theorem reader_of_signed (h : token.kind = .dash) (hnext : next.isNumber = true) :
    (reader names stop (token :: next :: rest)).Gives ((next.number "-").map .literal) rest := by
  unfold reader
  rw [Factor.read.eq_def]
  simp only [h, hnext, if_true]
  exact ⟨rfl, rfl⟩

theorem reader_of_negate {outcome : Except SyntaxError Factor} (h : token.kind = .dash)
    (hnext : (Token.frontOf stop rest).isNumber = false)
    (hrest : (reader names stop rest).Gives outcome left) :
    (reader names stop (token :: rest)).Gives (outcome.map .negate) left := by
  obtain ⟨rfl, rfl⟩ := hrest
  cases rest with
  | nil =>
    obtain ⟨hout, hrest⟩ := @reader_of_other names stop [] rfl
    rw [hout, hrest]
    unfold reader
    rw [Factor.read.eq_def]
    simp only [h]
    exact ⟨rfl, rfl⟩
  | cons next later =>
    rw [Token.frontOf_cons] at hnext
    unfold reader
    rw [Factor.read.eq_def]
    simp only [h, hnext, Bool.false_eq_true, if_false]
    exact ⟨rfl, rfl⟩

theorem reader_of_paren_error (h : token.kind = .leftParen)
    (hinner : (NumExpr.reader names stop rest).Gives (.error e) left) :
    (reader names stop (token :: rest)).Gives (.error e) left := by
  unfold reader
  unfold NumExpr.reader at hinner
  rw [Factor.read.eq_def]
  simp only [h]
  generalize NumExpr.read ⟨names, stop⟩ rest = r at hinner ⊢
  obtain ⟨outcome, rest, suffix⟩ := r
  obtain ⟨⟨⟩, ⟨⟩⟩ := hinner
  exact ⟨rfl, rfl⟩

theorem reader_of_paren_unclosed (h : token.kind = .leftParen)
    (hinner : (NumExpr.reader names stop rest).Gives (.ok inner) left)
    (hclose : (Token.frontOf stop left).kind ≠ .rightParen) :
    (reader names stop (token :: rest)).Gives
      (.error (.unclosedParen (Token.frontOf stop left))) left := by
  unfold reader
  unfold NumExpr.reader at hinner
  rw [Factor.read.eq_def]
  simp only [h]
  generalize NumExpr.read ⟨names, stop⟩ rest = r at hinner ⊢
  obtain ⟨outcome, rest, suffix⟩ := r
  obtain ⟨⟨⟩, ⟨⟩⟩ := hinner
  cases rest with
  | nil => exact ⟨rfl, rfl⟩
  | cons close rest =>
    rw [Token.frontOf_cons] at hclose
    simp only [hclose, if_false]
    exact ⟨rfl, rfl⟩

theorem reader_of_paren {close : Token} (h : token.kind = .leftParen)
    (hinner : (NumExpr.reader names stop rest).Gives (.ok inner) (close :: left))
    (hclose : close.kind = .rightParen) :
    (reader names stop (token :: rest)).Gives (.ok (.paren inner)) left := by
  unfold reader
  unfold NumExpr.reader at hinner
  rw [Factor.read.eq_def]
  simp only [h]
  generalize NumExpr.read ⟨names, stop⟩ rest = r at hinner ⊢
  obtain ⟨outcome, rest, suffix⟩ := r
  obtain ⟨⟨⟩, ⟨⟩⟩ := hinner
  simp only [hclose, if_true]
  exact ⟨rfl, rfl⟩

theorem reader_of_reference_error (h : token.kind = .identifier)
    (href : Context.reference ⟨names, stop⟩ .number token = .error e) :
    (reader names stop (token :: rest)).Gives (.error e) (token :: rest) := by
  unfold reader
  rw [Factor.read.eq_def]
  simp only [h, href]
  exact ⟨rfl, rfl⟩

theorem reader_of_reference {ref : Reference} (h : token.kind = .identifier)
    (href : Context.reference ⟨names, stop⟩ .number token = .ok ref) :
    (reader names stop (token :: rest)).Gives (.ok (.reference ref)) rest := by
  unfold reader
  rw [Factor.read.eq_def]
  simp only [h, href]
  exact ⟨rfl, rfl⟩

/-- A literal is an answer whatever comes behind it. -/
theorem answers_of_number {taken : List Token} {sign : String}
    (hline : ∀ t ∈ taken, t.kind ≠ .newline) (hmem : token ∈ taken)
    (h : ∀ stop rest, (reader names stop (taken ++ rest)).Gives
      ((token.number sign).map .literal) rest) :
    (reader names).Answers taken next ((token.number sign).map .literal) where
  inLine := hline
  minor e he := by
    refine SyntaxError.minorAt_of_mem ?_ (List.mem_append_left _ hmem)
    unfold Token.number at he
    simp only at he
    split at he
    · cases he
    · cases he
      exact ⟨rfl, rfl⟩
  gives stop rest _ := h stop rest

theorem foresees_dash (h : token.kind = .dash) (hrest : (Factor.reader names).Foresees stop rest) :
    (Factor.reader names).Foresees stop (token :: rest) := by
  by_cases hnumber : (Token.frontOf stop rest).isNumber = true
  · cases rest with
    | nil => cases hnumber
    | cons next later =>
      rw [Token.frontOf_cons] at hnumber
      have hline : ∀ t ∈ [token, next], t.kind ≠ .newline := by
        obtain hkind | hkind := Token.integer_or_float hnumber <;> simp [h, hkind]
      exact ⟨[token, next], later, _, rfl,
        answers_of_number hline (by simp) fun _ _ => reader_of_signed h hnumber⟩
  · rw [Bool.not_eq_true] at hnumber
    obtain ⟨taken, left, outcome, rfl, hanswers⟩ := hrest
    have hline : ∀ t ∈ [token], t.kind ≠ .newline := by simp [h]
    refine ⟨[token] ++ taken, left, _, rfl, hanswers.map .negate hline ?_⟩
    intro stop' rest' hnext hgives
    rw [← Token.frontOf_append hnext] at hnumber
    exact reader_of_negate h hnumber hgives

theorem foresees_paren (h : token.kind = .leftParen)
    (hrest : (NumExpr.reader names).Foresees stop rest) :
    (Factor.reader names).Foresees stop (token :: rest) := by
  obtain ⟨taken, left, outcome, rfl, hanswers⟩ := hrest
  have hline : ∀ t ∈ token :: taken, t.kind ≠ .newline :=
    List.forall_mem_cons.mpr ⟨by simp [h], hanswers.inLine⟩
  cases outcome with
  | error e =>
    refine ⟨token :: taken, left, .error e, rfl, hline, ?_, ?_⟩
    · rintro _ ⟨⟩
      exact (hanswers.minor rfl).mono (List.subset_cons_self _ _)
    · exact fun stop' rest' hnext => reader_of_paren_error h (hanswers.gives stop' rest' hnext)
  | ok inner =>
    by_cases hclose : (Token.frontOf stop left).kind = .rightParen
    · cases left with
      | nil => cases hclose
      | cons close left =>
        rw [Token.frontOf_cons] at hclose
        refine ⟨token :: (taken ++ [close]), left, .ok (.paren inner), by simp, ?_, by simp, ?_⟩
        · intro t ht
          obtain ht | ht := List.mem_append.mp (List.cons_append .. ▸ ht)
          · exact hline t ht
          · simp [List.mem_singleton.mp ht, hclose]
        · intro stop' rest' _
          rw [List.cons_append, List.append_assoc]
          exact reader_of_paren h (hanswers.gives stop' (close :: rest') rfl) hclose
    · refine ⟨token :: taken, left, .error (.unclosedParen (Token.frontOf stop left)), rfl, hline,
        ?_, ?_⟩
      · rintro _ ⟨⟩
        exact SyntaxError.minorAt_of_mem ⟨rfl, rfl⟩ (by simp)
      · intro stop' rest' hnext
        have hgives := hanswers.gives stop' rest' hnext
        rw [← hnext] at hclose ⊢
        exact reader_of_paren_unclosed h hgives hclose

theorem foresees_reference (h : token.kind = .identifier) :
    (Factor.reader names).Foresees stop (token :: rest) := by
  cases href : Context.reference ⟨names, stop⟩ .number token with
  | error e =>
    refine .fail e (Context.minor_of_reference href) ?_
    intro stop' tokens' hnext
    obtain ⟨later, rfl⟩ := Token.exists_cons_of_frontOf hnext (by simp [h])
    exact reader_of_reference_error h href
  | ok ref =>
    exact ⟨[token], rest, .ok (.reference ref), rfl, by simp [h], by simp,
      fun _ _ _ => reader_of_reference h href⟩

/-- A factor is foreseen if the expressions in it are. -/
theorem foresees_of_num
    (hfactor : ∀ later : List Token, later.length < tokens.length →
      (Factor.reader names).Foresees stop later)
    (hnum : ∀ later : List Token, later.length < tokens.length →
      (NumExpr.reader names).Foresees stop later) : (Factor.reader names).Foresees stop tokens := by
  cases hbegins : begins (Token.frontOf stop tokens).kind with
  | false =>
    refine .fail (.expected .numberOperand (Token.frontOf stop tokens)) ⟨rfl, rfl⟩ ?_
    intro stop' tokens' hnext
    rw [← hnext] at hbegins ⊢
    exact reader_of_other hbegins
  | true =>
    cases tokens with
    | nil => cases hbegins
    | cons token rest =>
      rw [Token.frontOf_cons] at hbegins
      have hrest : rest.length < (token :: rest).length := Nat.lt_succ_self _
      by_cases hnumber : token.isNumber = true
      · have hline : ∀ t ∈ [token], t.kind ≠ .newline := by
          obtain hkind | hkind := Token.integer_or_float hnumber <;> simp [hkind]
        exact ⟨[token], rest, _, rfl,
          answers_of_number hline (by simp) fun _ _ => reader_of_number hnumber⟩
      unfold begins at hbegins
      split at hbegins
      case h_1 hkind => exact absurd (by simp [Token.isNumber, hkind]) hnumber
      case h_2 hkind => exact absurd (by simp [Token.isNumber, hkind]) hnumber
      case h_3 hkind => exact foresees_dash hkind (hfactor rest hrest)
      case h_4 hkind => exact foresees_paren hkind (hnum rest hrest)
      case h_5 hkind => exact foresees_reference hkind
      case h_6 => cases hbegins

end Factor

/-- What a numeric expression is can be seen from its tokens and one more. -/
theorem numeric_foresees (stop : Position) (tokens : List Token) :
    (NumExpr.reader names).Foresees stop tokens ∧ (Term.reader names).Foresees stop tokens ∧
      (Factor.reader names).Foresees stop tokens := by
  induction hn : tokens.length using Nat.strongRecOn generalizing tokens with
  | ind n ih =>
    subst hn
    have hfactor := Factor.foresees_of_num (fun later h => (ih _ h later rfl).2.2)
      (fun later h => (ih _ h later rfl).1)
    have hterm := (Term.chains_reader names).foresees rfl rfl hfactor
      (fun later h => (ih _ h later rfl).2.1)
    exact ⟨(NumExpr.chains_reader names).foresees rfl rfl hterm
      (fun later h => (ih _ h later rfl).1), hterm, hfactor⟩

end numeric

/-! ## String expressions -/

section text

variable (names : String → Option Arena.Binding)

/-- The part of a string expression in front of the first `+`. -/
def StringOperand.reader : Reader StringOperand := fun stop tokens =>
  match tokens with
  | [] => .stay [] (.error (.expected .stringOperand (Token.endAt stop)))
  | token :: rest =>
    match StringOperand.read ⟨names, stop⟩ token with
    | .error e => .stay (token :: rest) (.error e)
    | .ok operand => (Reading.stay rest (.ok operand)).behind token

def StringExpr.reader : Reader StringExpr := fun stop tokens => StringExpr.read ⟨names, stop⟩ tokens

/-- Strings are joined by `+` alone. -/
def Operator.join? : TokenKind → Option Operator
  | .plus => some .add
  | _ => none

theorem Operator.join?_isSome {kind : TokenKind} {op : Operator}
    (h : Operator.join? kind = some op) : kind = .plus := by
  unfold Operator.join? at h
  split at h
  · rfl
  · cases h

section operand

variable {names} {stop : Position} {token : Token} {tokens rest : List Token} {e : SyntaxError}
variable {operand : StringOperand}

theorem StringOperand.minor_of_read {ctx : Context} (h : StringOperand.read ctx token = .error e) :
    e.position = token.position ∧ e.declaresNothing = false := by
  unfold StringOperand.read at h
  split at h
  case h_1 => cases h
  case h_2 =>
    cases href : ctx.reference .string token with
    | error e' =>
      rw [href] at h
      cases h
      exact Context.minor_of_reference href
    | ok ref =>
      rw [href] at h
      cases h
  case h_3 =>
    cases h
    exact ⟨rfl, rfl⟩

/-- The end of input is no operand. -/
theorem StringOperand.read_endAt (ctx : Context) (stop : Position) :
    StringOperand.read ctx (Token.endAt stop) =
      .error (.expected .stringOperand (Token.endAt stop)) := rfl

/-- An operand fails at the front token and leaves it there. -/
theorem StringOperand.reader_gives_error_iff {left : List Token} :
    (StringOperand.reader names stop tokens).Gives (.error e) left ↔
      left = tokens ∧
        StringOperand.read ⟨names, stop⟩ (Token.frontOf stop tokens) = .error e := by
  cases tokens with
  | nil =>
    rw [Token.frontOf_nil, StringOperand.read_endAt]
    exact ⟨fun h => ⟨h.rest_eq.symm, h.outcome_eq⟩, fun h => ⟨h.2, h.1.symm⟩⟩
  | cons token rest =>
    rw [Token.frontOf_cons]
    unfold StringOperand.reader
    cases hread : StringOperand.read ⟨names, stop⟩ token with
    | error e' =>
      simp only [hread]
      exact ⟨fun h => ⟨h.rest_eq.symm, h.outcome_eq⟩, fun h => ⟨h.2, h.1.symm⟩⟩
    | ok operand =>
      simp only [hread]
      exact ⟨fun h => (by cases h.outcome_eq), fun h => (by cases h.2)⟩

/-- An operand that is read is the front token alone. -/
theorem StringOperand.reader_gives_ok_iff :
    (StringOperand.reader names stop tokens).Gives (.ok operand) rest ↔
      ∃ token, tokens = token :: rest ∧
        StringOperand.read ⟨names, stop⟩ token = .ok operand := by
  cases tokens with
  | nil => exact ⟨fun h => (by cases h.outcome_eq), fun ⟨_, h, _⟩ => (by cases h)⟩
  | cons token tokens =>
    unfold StringOperand.reader
    cases hread : StringOperand.read ⟨names, stop⟩ token with
    | error e' =>
      simp only [hread]
      refine ⟨fun h => (by cases h.outcome_eq), ?_⟩
      rintro ⟨_, ⟨⟩, h⟩
      rw [hread] at h
      cases h
    | ok operand' =>
      simp only [hread]
      constructor
      · rintro ⟨⟨⟩, rfl⟩
        exact ⟨token, rfl, hread⟩
      · rintro ⟨_, ⟨⟩, h⟩
        rw [hread] at h
        cases h
        exact ⟨rfl, rfl⟩

end operand

theorem StringExpr.chains_reader :
    (StringOperand.reader names).Chains Operator.join? .single (fun operand _ => .chain operand)
      (StringExpr.reader names) where
  failed {stop tokens e left} h := by
    obtain ⟨rfl, hread⟩ := StringOperand.reader_gives_error_iff.mp h
    unfold StringExpr.reader
    cases left with
    | nil =>
      cases hread
      exact ⟨rfl, rfl⟩
    | cons token rest =>
      rw [Token.frontOf_cons] at hread
      rw [StringExpr.read]
      simp only [hread]
      exact ⟨rfl, rfl⟩
  ended {stop tokens tree left} h hop := by
    obtain ⟨token, rfl, hread⟩ := StringOperand.reader_gives_ok_iff.mp h
    unfold StringExpr.reader
    rw [StringExpr.read]
    simp only [hread]
    cases left with
    | nil => exact ⟨rfl, rfl⟩
    | cons next later =>
      have hplus : next.kind ≠ .plus := by
        intro hkind
        rw [Token.frontOf_cons, hkind] at hop
        cases hop
      simp only [hplus, if_false]
      exact ⟨rfl, rfl⟩
  goesOn {stop tokens tree sign later op outcome left} h hop hlater := by
    obtain ⟨token, rfl, hread⟩ := StringOperand.reader_gives_ok_iff.mp h
    unfold StringExpr.reader at hlater ⊢
    rw [StringExpr.read]
    obtain ⟨rfl, rfl⟩ := hlater
    simp only [hread, Operator.join?_isSome hop, if_true]
    exact ⟨rfl, rfl⟩

theorem StringOperand.foresees (stop : Position) (tokens : List Token) :
    (StringOperand.reader names).Foresees stop tokens := by
  cases hread : StringOperand.read ⟨names, stop⟩ (Token.frontOf stop tokens) with
  | error e =>
    refine .fail e (StringOperand.minor_of_read hread) ?_
    intro stop' tokens' hnext
    rw [← hnext] at hread
    exact StringOperand.reader_gives_error_iff.mpr ⟨rfl, hread⟩
  | ok operand =>
    cases tokens with
    | nil => cases hread
    | cons token rest =>
      rw [Token.frontOf_cons] at hread
      have hline : token.kind ≠ .newline := by
        intro hkind
        simp [StringOperand.read, hkind] at hread
      exact ⟨[token], rest, .ok operand, rfl, by simpa using hline, by simp,
        fun _ _ _ => StringOperand.reader_gives_ok_iff.mpr ⟨token, rfl, hread⟩⟩

theorem StringExpr.foresees (stop : Position) (tokens : List Token) :
    (StringExpr.reader names).Foresees stop tokens := by
  induction hn : tokens.length using Nat.strongRecOn generalizing tokens with
  | ind n ih =>
    subst hn
    exact (StringExpr.chains_reader names).foresees rfl rfl
      (StringOperand.foresees names stop tokens) fun later h => ih _ h later rfl

end text

/-! ## Expressions of a wanted kind -/

section expr

variable {names : String → Option Arena.Binding} {kind actual : Kind} {stop : Position}
variable {tokens left : List Token} {e : SyntaxError}

def Expr.reader (names : String → Option Arena.Binding) (kind : Kind) : Reader Expr :=
  fun stop tokens => Expr.read ⟨names, stop⟩ kind tokens

theorem Context.minor_of_kindOf? {ctx : Context} {token : Token}
    (h : ctx.kindOf? token = .error e) :
    e.position = token.position ∧ e.declaresNothing = false := by
  unfold Context.kindOf? at h
  split at h
  case h_6 =>
    split at h
    · cases h
      exact ⟨rfl, rfl⟩
    · cases h
  all_goals cases h

theorem Expr.reader_of_error
    (h : Context.kindOf? ⟨names, stop⟩ (Token.frontOf stop tokens) = .error e) :
    (Expr.reader names kind stop tokens).Gives (.error e) tokens := by
  simp only [Expr.reader, Expr.read, Context.front_eq, h]
  exact ⟨rfl, rfl⟩

theorem Expr.reader_of_none
    (h : Context.kindOf? ⟨names, stop⟩ (Token.frontOf stop tokens) = .ok none) :
    (Expr.reader names kind stop tokens).Gives
      (.error (.expected (.expressionOf kind) (Token.frontOf stop tokens))) tokens := by
  simp only [Expr.reader, Expr.read, Context.front_eq, h]
  exact ⟨rfl, rfl⟩

theorem Expr.reader_of_mismatch
    (h : Context.kindOf? ⟨names, stop⟩ (Token.frontOf stop tokens) = .ok (some actual))
    (hkind : actual ≠ kind) :
    (Expr.reader names kind stop tokens).Gives
      (.error (.mismatch kind actual (Token.frontOf stop tokens))) tokens := by
  simp only [Expr.reader, Expr.read, Context.front_eq, h, hkind, if_false]
  exact ⟨rfl, rfl⟩

theorem Expr.reader_of_number {outcome : Except SyntaxError NumExpr}
    (h : Context.kindOf? ⟨names, stop⟩ (Token.frontOf stop tokens) = .ok (some .number))
    (hread : (NumExpr.reader names stop tokens).Gives outcome left) :
    (Expr.reader names .number stop tokens).Gives (outcome.map .number) left := by
  obtain ⟨rfl, rfl⟩ := hread
  simp only [Expr.reader, Expr.read, Context.front_eq, h, if_true]
  exact ⟨rfl, rfl⟩

theorem Expr.reader_of_string {outcome : Except SyntaxError StringExpr}
    (h : Context.kindOf? ⟨names, stop⟩ (Token.frontOf stop tokens) = .ok (some .string))
    (hread : (StringExpr.reader names stop tokens).Gives outcome left) :
    (Expr.reader names .string stop tokens).Gives (outcome.map .string) left := by
  obtain ⟨rfl, rfl⟩ := hread
  simp only [Expr.reader, Expr.read, Context.front_eq, h, if_true]
  exact ⟨rfl, rfl⟩

/-- What an expression is can be seen from its tokens and one more. -/
theorem Expr.foresees (names : String → Option Arena.Binding) (kind : Kind) (stop : Position)
    (tokens : List Token) : (Expr.reader names kind).Foresees stop tokens := by
  have hline : ∀ t ∈ ([] : List Token), t.kind ≠ .newline := by simp
  cases hkind : Context.kindOf? ⟨names, stop⟩ (Token.frontOf stop tokens) with
  | error e =>
    refine .fail e (Context.minor_of_kindOf? hkind) ?_
    intro stop' tokens' hnext
    rw [← hnext] at hkind
    exact Expr.reader_of_error hkind
  | ok found =>
    cases found with
    | none =>
      refine .fail (.expected (.expressionOf kind) (Token.frontOf stop tokens)) ⟨rfl, rfl⟩ ?_
      intro stop' tokens' hnext
      rw [← hnext] at hkind ⊢
      exact Expr.reader_of_none hkind
    | some actual =>
      by_cases hsame : actual = kind
      · subst hsame
        cases actual with
        | number =>
          obtain ⟨taken, rest, outcome, rfl, hanswers⟩ := (numeric_foresees names stop tokens).1
          refine ⟨taken, rest, _, rfl, hanswers.map .number hline ?_⟩
          intro stop' rest' hnext hgives
          rw [← Token.frontOf_append hnext] at hkind
          exact Expr.reader_of_number hkind hgives
        | string =>
          obtain ⟨taken, rest, outcome, rfl, hanswers⟩ := StringExpr.foresees names stop tokens
          refine ⟨taken, rest, _, rfl, hanswers.map .string hline ?_⟩
          intro stop' rest' hnext hgives
          rw [← Token.frontOf_append hnext] at hkind
          exact Expr.reader_of_string hkind hgives
      · refine .fail (.mismatch kind actual (Token.frontOf stop tokens)) ⟨rfl, rfl⟩ ?_
        intro stop' tokens' hnext
        rw [← hnext] at hkind ⊢
        exact Expr.reader_of_mismatch hkind hsame

end expr

end LineScript
