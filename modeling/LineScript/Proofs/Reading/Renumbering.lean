import LineScript.Proofs.Reading.Leaves
import LineScript.Proofs.Reading.Walk

/-!
# Lines with other numbers

Positions are carried along by a reading and steer nothing. If the lines of all tokens get
other numbers, the same trees are read and the same errors found, with the same new numbers
in them (`Program.ofTokens_renumber`). The root block is the exception: its position is not
that of a token and stays where it is.
-/

namespace LineScript

/-! ## New numbers -/

section renumber

variable (g : Nat → Nat)

def Position.renumber (p : Position) : Position :=
  { p with line := g p.line }

def Token.renumber (token : Token) : Token :=
  { token with position := token.position.renumber g }

def Reference.renumber (ref : Reference) : Reference :=
  { ref with position := ref.position.renumber g }

mutual

def NumExpr.renumber : NumExpr → NumExpr
  | .single term => .single term.renumber
  | .chain term op rest => .chain term.renumber op rest.renumber

def Term.renumber : Term → Term
  | .single factor => .single factor.renumber
  | .chain factor op rest => .chain factor.renumber op rest.renumber

def Factor.renumber : Factor → Factor
  | .literal n => .literal n
  | .paren inner => .paren inner.renumber
  | .negate inner => .negate inner.renumber
  | .reference ref => .reference (ref.renumber g)

end

def StringOperand.renumber : StringOperand → StringOperand
  | .literal text => .literal text
  | .reference ref => .reference (ref.renumber g)

def StringExpr.renumber : StringExpr → StringExpr
  | .single operand => .single (operand.renumber g)
  | .chain operand rest => .chain (operand.renumber g) rest.renumber

def Expr.renumber : Expr → Expr
  | .number e => .number (e.renumber g)
  | .string e => .string (e.renumber g)

mutual

def Statement.renumber : Statement → Statement
  | .null => .null
  | .declare position name symbol kind initial =>
    .declare (position.renumber g) name symbol kind (initial.map (Expr.renumber g))
  | .assign position name symbol compound e =>
    .assign (position.renumber g) name symbol compound (e.renumber g)
  | .print position newline payload =>
    .print (position.renumber g) newline (payload.map (Expr.renumber g))
  | .block position table body =>
    .block (position.renumber g) table (Statement.renumberAll body)

def Statement.renumberAll : List Statement → List Statement
  | [] => []
  | statement :: rest => statement.renumber :: Statement.renumberAll rest

end

/-- The root block stays at the front of the input. -/
def Program.renumber (p : Program) : Program :=
  { p with root := { p.root with body := Statement.renumberAll g p.root.body } }

def SyntaxError.renumber (e : SyntaxError) : SyntaxError :=
  { e with position := e.position.renumber g }

/-- The outcome of a reading, with new numbers in the tree or in the error. -/
def SyntaxError.renumberOutcome {α β : Type} (f : α → β) (outcome : Except SyntaxError α) :
    Except SyntaxError β :=
  (outcome.map f).mapError (SyntaxError.renumber g)

def Site.renumber (site : Site) : Site :=
  { site with stop := site.stop.renumber g }

end renumber

section fields

variable {g : Nat → Nat} {token : Token} {tokens : List Token} {stop : Position} {e : SyntaxError}

@[simp] theorem Token.renumber_kind : (token.renumber g).kind = token.kind := rfl

@[simp] theorem Token.renumber_literal : (token.renumber g).literal = token.literal := rfl

@[simp] theorem Token.renumber_isNumber : (token.renumber g).isNumber = token.isNumber := rfl

@[simp] theorem Token.frontOf_renumber :
    Token.frontOf (stop.renumber g) (tokens.map (Token.renumber g)) =
      (Token.frontOf stop tokens).renumber g := by
  cases tokens <;> rfl

theorem SyntaxError.renumber_expected {what : Expectation} :
    (SyntaxError.expected what token).renumber g = .expected what (token.renumber g) := rfl

@[simp] theorem SyntaxError.renumber_abortsBlock : (e.renumber g).abortsBlock = e.abortsBlock := rfl

section outcome

variable {α β γ : Type} {f : α → β} {tree : α}

open SyntaxError (renumberOutcome)

@[simp] theorem SyntaxError.renumberOutcome_ok : renumberOutcome g f (.ok tree) = .ok (f tree) :=
  rfl

@[simp] theorem SyntaxError.renumberOutcome_error :
    renumberOutcome g f (.error e) = .error (e.renumber g) := rfl

/-- If a tree is built from a part of it, it does not matter when the numbers change. -/
theorem SyntaxError.renumberOutcome_map {δ : Type} {f : α → β} {f' : γ → δ} {build : α → γ}
    {build' : β → δ} (h : ∀ tree, f' (build tree) = build' (f tree))
    (outcome : Except SyntaxError α) :
    renumberOutcome g f' (outcome.map build) = (renumberOutcome g f outcome).map build' := by
  cases outcome with
  | error e => rfl
  | ok tree => exact congrArg _ (h tree)

end outcome

end fields

theorem Context.reference_renumber (g : Nat → Nat) (names : String → Option Arena.Binding)
    (stop stop' : Position) (kind : Kind) (token : Token) :
    Context.reference ⟨names, stop'⟩ kind (token.renumber g) =
      SyntaxError.renumberOutcome g (Reference.renumber g)
        (Context.reference ⟨names, stop⟩ kind token) := by
  simp only [Context.reference, Token.renumber_literal]
  cases names token.literal with
  | none => rfl
  | some binding =>
    simp only
    split <;> rfl

theorem Context.kindOf?_renumber (g : Nat → Nat) (names : String → Option Arena.Binding)
    (stop stop' : Position) (token : Token) :
    Context.kindOf? ⟨names, stop'⟩ (token.renumber g) =
      SyntaxError.renumberOutcome g id (Context.kindOf? ⟨names, stop⟩ token) := by
  simp only [Context.kindOf?, Token.renumber_kind, Token.renumber_literal]
  split
  case h_6 => cases names token.literal <;> rfl
  all_goals rfl

theorem Token.number_renumber (g : Nat → Nat) (token : Token) (sign : String) :
    (token.renumber g).number sign = SyntaxError.renumberOutcome g id (token.number sign) := by
  by_cases hfloat : token.kind = .float
  · have hfloat' : (token.renumber g).kind = .float := hfloat
    unfold Token.number
    rw [if_pos hfloat, if_pos hfloat', Token.renumber_literal]
    dsimp only
    cases Number.ofFloatText? (sign ++ token.literal).toList <;> rfl
  · have hfloat' : (token.renumber g).kind ≠ .float := hfloat
    unfold Token.number
    rw [if_neg hfloat, if_neg hfloat', Token.renumber_literal]
    dsimp only
    cases Number.ofIntegerText? (sign ++ token.literal).toList <;> rfl

/-! ## Expressions -/

namespace Reader

variable {α β : Type} {g : Nat → Nat} {stop : Position} {tokens : List Token}

/-- From tokens with new numbers the same is read as from the tokens, with new numbers. -/
def Renumbers (g : Nat → Nat) (f : α → α) (read : Reader α) (stop : Position)
    (tokens : List Token) : Prop :=
  ∃ outcome left, (read stop tokens).Gives outcome left ∧
    (read (stop.renumber g) (tokens.map (Token.renumber g))).Gives
      (SyntaxError.renumberOutcome g f outcome) (left.map (Token.renumber g))

theorem Chains.renumbers {part : Reader α} {whole : Reader β} {op? : TokenKind → Option Operator}
    {single : α → β} {chain : α → Operator → β → β} {f : α → α} {f' : β → β}
    (h : Chains part op? single chain whole) (hinput : op? .endOfInput = none)
    (hsingle : ∀ tree, f' (single tree) = single (f tree))
    (hchain : ∀ tree op rest, f' (chain tree op rest) = chain (f tree) op (f' rest))
    (hpart : part.Renumbers g f stop tokens)
    (hlater : ∀ later : List Token, later.length < tokens.length →
      whole.Renumbers g f' stop later) : whole.Renumbers g f' stop tokens := by
  obtain ⟨outcome, left, hgives, hgives'⟩ := hpart
  cases outcome with
  | error e => exact ⟨.error e, left, h.failed hgives, h.failed hgives'⟩
  | ok tree =>
    cases hop : op? (Token.frontOf stop left).kind with
    | none =>
      refine ⟨.ok (single tree), left, h.ended hgives hop, ?_⟩
      rw [SyntaxError.renumberOutcome_ok, hsingle]
      exact h.ended hgives' (by rwa [Token.frontOf_renumber])
    | some op =>
      cases left with
      | nil =>
        rw [Token.frontOf_nil, Token.endAt, hinput] at hop
        cases hop
      | cons sign later =>
        have hshorter : later.length < tokens.length := by
          have hlength := (part stop tokens).suffix.length_le
          rwa [hgives.rest_eq] at hlength
        obtain ⟨more, left, hmore, hmore'⟩ := hlater later hshorter
        refine ⟨more.map (chain tree op), left, h.goesOn hgives hop hmore, ?_⟩
        rw [SyntaxError.renumberOutcome_map (hchain tree op)]
        exact h.goesOn hgives' hop hmore'

end Reader

section numeric

variable {g : Nat → Nat} {names : String → Option Arena.Binding} {stop : Position}
variable {token : Token} {tokens rest : List Token}

namespace Factor

/-- A literal has no position. -/
theorem renumberOutcome_literal (outcome : Except SyntaxError Number) :
    SyntaxError.renumberOutcome g (Factor.renumber g) (outcome.map .literal) =
      (SyntaxError.renumberOutcome g id outcome).map .literal := by
  have hliteral (n : Number) : (Factor.literal n).renumber g = .literal (id n) := by
    rw [renumber, id]
  exact SyntaxError.renumberOutcome_map hliteral outcome

theorem renumbers_dash (h : token.kind = .dash)
    (hrest : (reader names).Renumbers g (Factor.renumber g) stop rest) :
    (reader names).Renumbers g (Factor.renumber g) stop (token :: rest) := by
  by_cases hnumber : (Token.frontOf stop rest).isNumber = true
  · cases rest with
    | nil => cases hnumber
    | cons next later =>
      refine ⟨_, later, reader_of_signed h hnumber, ?_⟩
      rw [renumberOutcome_literal,
        ← Token.number_renumber]
      exact reader_of_signed h hnumber
  · rw [Bool.not_eq_true] at hnumber
    obtain ⟨outcome, left, hgives, hgives'⟩ := hrest
    refine ⟨_, left, reader_of_negate h hnumber hgives, ?_⟩
    have hnegate (inner : Factor) : (Factor.negate inner).renumber g = .negate (inner.renumber g) :=
      by rw [renumber]
    rw [SyntaxError.renumberOutcome_map hnegate]
    exact reader_of_negate h (by rwa [Token.frontOf_renumber]) hgives'

theorem renumbers_paren (h : token.kind = .leftParen)
    (hrest : (NumExpr.reader names).Renumbers g (NumExpr.renumber g) stop rest) :
    (reader names).Renumbers g (Factor.renumber g) stop (token :: rest) := by
  obtain ⟨outcome, left, hgives, hgives'⟩ := hrest
  cases outcome with
  | error e =>
    exact ⟨_, left, reader_of_paren_error h hgives, reader_of_paren_error h hgives'⟩
  | ok inner =>
    by_cases hclose : (Token.frontOf stop left).kind = .rightParen
    · cases left with
      | nil => cases hclose
      | cons close left =>
        refine ⟨_, left, reader_of_paren h hgives hclose, ?_⟩
        rw [SyntaxError.renumberOutcome_ok, renumber]
        exact reader_of_paren h hgives' hclose
    · refine ⟨_, left, reader_of_paren_unclosed h hgives hclose, ?_⟩
      have hclose' : (Token.frontOf (stop.renumber g) (left.map (Token.renumber g))).kind ≠
          .rightParen := by rwa [Token.frontOf_renumber]
      have h' : (token.renumber g).kind = .leftParen := h
      have hunclosed := reader_of_paren_unclosed h' hgives' hclose'
      rw [Token.frontOf_renumber] at hunclosed
      exact hunclosed

theorem renumbers_reference (h : token.kind = .identifier) :
    (reader names).Renumbers g (Factor.renumber g) stop (token :: rest) := by
  have href' := Context.reference_renumber g names stop (stop.renumber g) .number token
  cases href : Context.reference ⟨names, stop⟩ .number token with
  | error e =>
    rw [href] at href'
    exact ⟨_, _, reader_of_reference_error h href, reader_of_reference_error h href'⟩
  | ok ref =>
    rw [href] at href'
    refine ⟨_, _, reader_of_reference h href, ?_⟩
    rw [SyntaxError.renumberOutcome_ok, renumber]
    exact reader_of_reference h href'

theorem renumbers_of_num
    (hfactor : ∀ later : List Token, later.length < tokens.length →
      (reader names).Renumbers g (Factor.renumber g) stop later)
    (hnum : ∀ later : List Token, later.length < tokens.length →
      (NumExpr.reader names).Renumbers g (NumExpr.renumber g) stop later) :
    (reader names).Renumbers g (Factor.renumber g) stop tokens := by
  cases hbegins : begins (Token.frontOf stop tokens).kind with
  | false =>
    refine ⟨_, _, reader_of_other hbegins, ?_⟩
    rw [← Token.renumber_kind (g := g), ← Token.frontOf_renumber] at hbegins
    rw [SyntaxError.renumberOutcome_error, SyntaxError.renumber_expected, ← Token.frontOf_renumber]
    exact reader_of_other hbegins
  | true =>
    cases tokens with
    | nil => cases hbegins
    | cons token rest =>
      rw [Token.frontOf_cons] at hbegins
      have hrest : rest.length < (token :: rest).length := Nat.lt_succ_self _
      by_cases hnumber : token.isNumber = true
      · refine ⟨_, rest, reader_of_number hnumber, ?_⟩
        rw [renumberOutcome_literal,
          ← Token.number_renumber]
        exact reader_of_number hnumber
      unfold begins at hbegins
      split at hbegins
      case h_1 hkind => exact absurd (by simp [Token.isNumber, hkind]) hnumber
      case h_2 hkind => exact absurd (by simp [Token.isNumber, hkind]) hnumber
      case h_3 hkind => exact renumbers_dash hkind (hfactor rest hrest)
      case h_4 hkind => exact renumbers_paren hkind (hnum rest hrest)
      case h_5 hkind => exact renumbers_reference hkind
      case h_6 => cases hbegins

end Factor

theorem numeric_renumbers (g : Nat → Nat) (names : String → Option Arena.Binding)
    (stop : Position) (tokens : List Token) :
    (NumExpr.reader names).Renumbers g (NumExpr.renumber g) stop tokens ∧
      (Term.reader names).Renumbers g (Term.renumber g) stop tokens ∧
      (Factor.reader names).Renumbers g (Factor.renumber g) stop tokens := by
  induction hn : tokens.length using Nat.strongRecOn generalizing tokens with
  | ind n ih =>
    subst hn
    have hfactor := Factor.renumbers_of_num (fun later h => (ih _ h later rfl).2.2)
      (fun later h => (ih _ h later rfl).1)
    have hterm := (Term.chains_reader names).renumbers rfl (fun _ => by rw [Term.renumber])
      (fun _ _ _ => by rw [Term.renumber]) hfactor (fun later h => (ih _ h later rfl).2.1)
    exact ⟨(NumExpr.chains_reader names).renumbers rfl (fun _ => by rw [NumExpr.renumber])
      (fun _ _ _ => by rw [NumExpr.renumber]) hterm (fun later h => (ih _ h later rfl).1),
      hterm, hfactor⟩

end numeric

section text

variable (g : Nat → Nat) (names : String → Option Arena.Binding) (stop : Position)

theorem StringOperand.read_renumber (stop' : Position) (token : Token) :
    StringOperand.read ⟨names, stop'⟩ (token.renumber g) =
      SyntaxError.renumberOutcome g (StringOperand.renumber g)
        (StringOperand.read ⟨names, stop⟩ token) := by
  have hreference (ref : Reference) :
      (StringOperand.reference ref).renumber g = .reference (ref.renumber g) := rfl
  simp only [StringOperand.read, Token.renumber_kind, Token.renumber_literal]
  split
  case h_1 => rfl
  case h_2 =>
    rw [Context.reference_renumber g names stop stop' .string token,
      SyntaxError.renumberOutcome_map hreference]
  case h_3 => rfl

theorem StringOperand.renumbers (tokens : List Token) :
    (StringOperand.reader names).Renumbers g (StringOperand.renumber g) stop tokens := by
  have hread' := StringOperand.read_renumber g names stop (stop.renumber g)
    (Token.frontOf stop tokens)
  cases hread : StringOperand.read ⟨names, stop⟩ (Token.frontOf stop tokens) with
  | error e =>
    rw [hread, ← Token.frontOf_renumber] at hread'
    exact ⟨.error e, tokens, reader_gives_error_iff.mpr ⟨rfl, hread⟩,
      reader_gives_error_iff.mpr ⟨rfl, hread'⟩⟩
  | ok operand =>
    cases tokens with
    | nil => cases hread
    | cons token rest =>
      rw [hread] at hread'
      exact ⟨.ok operand, rest, reader_gives_ok_iff.mpr ⟨token, rfl, hread⟩,
        reader_gives_ok_iff.mpr ⟨token.renumber g, rfl, hread'⟩⟩

theorem StringExpr.renumbers (tokens : List Token) :
    (StringExpr.reader names).Renumbers g (StringExpr.renumber g) stop tokens := by
  induction hn : tokens.length using Nat.strongRecOn generalizing tokens with
  | ind n ih =>
    subst hn
    exact (StringExpr.chains_reader names).renumbers rfl (fun _ => rfl) (fun _ _ _ => rfl)
      (StringOperand.renumbers g names stop tokens) fun later h => ih _ h later rfl

theorem Expr.renumbers (kind : Kind) (tokens : List Token) :
    (Expr.reader names kind).Renumbers g (Expr.renumber g) stop tokens := by
  have hkind' := Context.kindOf?_renumber g names stop (stop.renumber g) (Token.frontOf stop tokens)
  rw [← Token.frontOf_renumber] at hkind'
  cases hkind : Context.kindOf? ⟨names, stop⟩ (Token.frontOf stop tokens) with
  | error e =>
    rw [hkind] at hkind'
    exact ⟨_, _, reader_of_error hkind, reader_of_error hkind'⟩
  | ok found =>
    rw [hkind] at hkind'
    cases found with
    | none =>
      refine ⟨_, _, reader_of_none hkind, ?_⟩
      rw [SyntaxError.renumberOutcome_error, SyntaxError.renumber_expected,
        ← Token.frontOf_renumber]
      exact reader_of_none hkind'
    | some actual =>
      by_cases hsame : actual = kind
      · subst hsame
        cases actual with
        | number =>
          obtain ⟨outcome, left, hgives, hgives'⟩ := (numeric_renumbers g names stop tokens).1
          refine ⟨_, left, reader_of_number hkind hgives, ?_⟩
          have hnumber (e : NumExpr) : (Expr.number e).renumber g = .number (e.renumber g) := rfl
          rw [SyntaxError.renumberOutcome_map hnumber]
          exact reader_of_number hkind' hgives'
        | string =>
          obtain ⟨outcome, left, hgives, hgives'⟩ := StringExpr.renumbers g names stop tokens
          refine ⟨_, left, reader_of_string hkind hgives, ?_⟩
          have hstring (e : StringExpr) : (Expr.string e).renumber g = .string (e.renumber g) := rfl
          rw [SyntaxError.renumberOutcome_map hstring]
          exact reader_of_string hkind' hgives'
      · refine ⟨_, _, reader_of_mismatch hkind hsame, ?_⟩
        have hmismatch := reader_of_mismatch hkind' hsame
        rw [Token.frontOf_renumber] at hmismatch
        exact hmismatch

end text

/-! ## Statements -/

/-- The second reading is the first one with new numbers. -/
structure StatementReading.Renumbered (g : Nat → Nat) {before before' : List Token}
    (r : StatementReading before) (r' : StatementReading before') : Prop where
  outcome : r'.outcome = SyntaxError.renumberOutcome g (Statement.renumber g) r.outcome
  rest : r'.rest = r.rest.map (Token.renumber g)
  arena : r'.arena = r.arena

namespace StatementReading.Renumbered

variable {g : Nat → Nat} {before before' left : List Token} {a : Arena}
variable {r : StatementReading before} {r' : StatementReading before'}

theorem plain {reading : Reading Statement before} {reading' : Reading Statement before'}
    {outcome : Except SyntaxError Statement} (h : reading.Gives outcome left)
    (h' : reading'.Gives (SyntaxError.renumberOutcome g (Statement.renumber g) outcome)
      (left.map (Token.renumber g))) :
    Renumbered g (.plain a reading) (.plain a reading') := by
  obtain ⟨rfl, rfl⟩ := h
  exact ⟨h'.outcome_eq, h'.rest_eq, rfl⟩

/-- Whether a statement ends hangs on the kind of the next token. -/
theorem finish (h : Renumbered g r r') : Renumbered g r.finish r'.finish := by
  obtain ⟨⟨outcome, rest, suffix⟩, arena, errors, log⟩ := r
  obtain ⟨⟨outcome', rest', suffix'⟩, arena', errors', log'⟩ := r'
  obtain ⟨houtcome, hrest, harena⟩ := h
  dsimp only at houtcome hrest harena
  subst houtcome hrest harena
  cases outcome with
  | error e => exact ⟨rfl, rfl, rfl⟩
  | ok statement =>
    cases rest with
    | nil => exact ⟨rfl, rfl, rfl⟩
    | cons token rest =>
      simp only [StatementReading.finish, SyntaxError.renumberOutcome_ok, List.map_cons,
        Token.renumber_kind]
      split <;> exact ⟨rfl, rfl, rfl⟩

end StatementReading.Renumbered

namespace Statement

variable {g : Nat → Nat} {names : String → Option Arena.Binding} {stop position : Position}
variable {site : Site} {a : Arena} {first : Token} {tokens : List Token}

theorem initialReader_renumbers (g : Nat → Nat) (names : String → Option Arena.Binding)
    (kind : Kind) (stop : Position) (tokens : List Token) :
    (initialReader names kind).Renumbers g (Option.map (Expr.renumber g)) stop tokens := by
  by_cases hequals : (Token.frontOf stop tokens).kind = .equals
  · cases tokens with
    | nil => cases hequals
    | cons token rest =>
      obtain ⟨outcome, left, hgives, hgives'⟩ := Expr.renumbers g names stop kind rest
      refine ⟨_, left, initialReader_of_value hequals hgives, ?_⟩
      have hsome (e : Expr) : (some e).map (Expr.renumber g) = some (e.renumber g) := rfl
      rw [SyntaxError.renumberOutcome_map hsome]
      have hequals' : (token.renumber g).kind = .equals := hequals
      exact initialReader_of_value hequals' hgives'
  · refine ⟨_, _, initialReader_of_none hequals, initialReader_of_none ?_⟩
    rwa [Token.frontOf_renumber]

/-- A declaration of a new name is read up to its first value, which is read alike. -/
theorem renumbered_declare_free (g : Nat → Nat) {site : Site} {a : Arena} (position : Position)
    {name type : Token} {kind : Kind} (rest : List Token) (hname : name.kind = .identifier)
    (htype : typeWord? type.kind = some kind)
    (hfree : ∀ id, a.getLocal site.table name.literal ≠ .ok (some id)) :
    (readDeclare site a position (name :: type :: rest)).Renumbered g
      (readDeclare (site.renumber g) a (position.renumber g)
        ((name :: type :: rest).map (Token.renumber g))) := by
  have hname' : (name.renumber g).kind = .identifier := hname
  have htype' : typeWord? (type.renumber g).kind = some kind := htype
  have hread : readDeclare site a position (name :: type :: rest) = _ :=
    readDeclare_of_free hname htype hfree
  have hread' : readDeclare (site.renumber g) a (position.renumber g)
      (name.renumber g :: type.renumber g :: rest.map (Token.renumber g)) = _ :=
    readDeclare_of_free hname' htype' hfree
  rw [List.map_cons, List.map_cons, hread, hread']
  obtain ⟨outcome, left, hgives, hgives'⟩ :=
    initialReader_renumbers g (a.resolve? site.table) kind site.stop rest
  have hdeclare (initial : Option Expr) :
      (Statement.declare position name.literal
        (a.declare site.table (.declared name.literal kind)).1 kind initial).renumber g =
      .declare (position.renumber g) name.literal
        (a.declare site.table (.declared name.literal kind)).1 kind
        (initial.map (Expr.renumber g)) := by rw [Statement.renumber]
  refine .plain ⟨congrArg (Except.map _) hgives.outcome_eq, hgives.rest_eq⟩ ?_
  rw [SyntaxError.renumberOutcome_map hdeclare]
  exact ⟨congrArg (Except.map _) hgives'.outcome_eq, hgives'.rest_eq⟩

theorem renumbered_declare (g : Nat → Nat) (site : Site) (a : Arena) (position : Position)
    (tokens : List Token) :
    (readDeclare site a position tokens).Renumbered g
      (readDeclare (site.renumber g) a (position.renumber g) (tokens.map (Token.renumber g))) := by
  by_cases hname : (Token.frontOf site.stop tokens).kind = .identifier
  case neg =>
    have hread : readDeclare site a position tokens = _ := readDeclare_of_noName hname
    have hread' : readDeclare (site.renumber g) a (position.renumber g)
        (tokens.map (Token.renumber g)) = _ :=
      readDeclare_of_noName (by rwa [Token.frontOf_renumber])
    rw [hread, hread', Token.frontOf_renumber]
    exact .plain ⟨rfl, rfl⟩ ⟨rfl, rfl⟩
  case pos =>
    cases tokens with
    | nil => cases hname
    | cons name tokens =>
      rw [Token.frontOf_cons] at hname
      have hname' : (name.renumber g).kind = .identifier := hname
      cases htype : typeWord? (Token.frontOf site.stop tokens).kind with
      | none =>
        have hread : readDeclare site a position (name :: tokens) = _ :=
          readDeclare_of_noType hname htype
        have hread' : readDeclare (site.renumber g) a (position.renumber g)
            (name.renumber g :: tokens.map (Token.renumber g)) = _ :=
          readDeclare_of_noType hname' (by rwa [Token.frontOf_renumber])
        rw [List.map_cons, hread, hread', Token.frontOf_renumber]
        exact .plain ⟨rfl, rfl⟩ ⟨rfl, rfl⟩
      | some kind =>
        cases tokens with
        | nil => cases htype
        | cons type rest =>
          rw [Token.frontOf_cons] at htype
          have htype' : typeWord? (type.renumber g).kind = some kind := htype
          by_cases hbound : ∃ id, a.getLocal site.table name.literal = .ok (some id)
          · obtain ⟨id, hbound⟩ := hbound
            have hread : readDeclare site a position (name :: type :: rest) = _ :=
              readDeclare_of_bound hname htype hbound
            have hread' : readDeclare (site.renumber g) a (position.renumber g)
                (name.renumber g :: type.renumber g :: rest.map (Token.renumber g)) = _ :=
              readDeclare_of_bound hname' htype' hbound
            rw [List.map_cons, List.map_cons, hread, hread']
            exact .plain ⟨rfl, rfl⟩ ⟨rfl, rfl⟩
          · exact renumbered_declare_free g position rest hname htype (not_exists.mp hbound)

theorem renumbered_assign (g : Nat → Nat) (names : String → Option Arena.Binding)
    (stop : Position) (a : Arena) (target : Token) (tokens : List Token) :
    (StatementReading.plain a (assignReader names target stop tokens)).Renumbered g
      (.plain a (assignReader names (target.renumber g) (stop.renumber g)
        (tokens.map (Token.renumber g)))) := by
  cases htarget : names target.literal with
  | none =>
    simp only [assignReader, readAssign, Token.renumber_literal, htarget]
    exact .plain ⟨rfl, rfl⟩ ⟨rfl, rfl⟩
  | some binding =>
    have htarget' : names (target.renumber g).literal = some binding := htarget
    cases hop : compound? (Token.frontOf stop tokens).kind with
    | none =>
      refine .plain (assignReader_of_none htarget hop) ?_
      rw [SyntaxError.renumberOutcome_error, SyntaxError.renumber_expected,
        ← Token.frontOf_renumber]
      exact assignReader_of_none htarget' (by rwa [Token.frontOf_renumber])
    | some compound =>
      cases tokens with
      | nil => cases hop
      | cons op rest =>
        obtain ⟨outcome, left, hgives, hgives'⟩ := Expr.renumbers g names stop binding.kind rest
        refine .plain (assignReader_of_value htarget hop hgives) ?_
        have hassign (e : Expr) :
            (Statement.assign target.position target.literal binding.symbol compound e).renumber g =
              .assign (target.position.renumber g) target.literal binding.symbol compound
                (e.renumber g) := by rw [Statement.renumber]
        rw [SyntaxError.renumberOutcome_map hassign]
        have hop' : compound? (op.renumber g).kind = some compound := hop
        exact assignReader_of_value htarget' hop' hgives'

theorem renumbered_print (g : Nat → Nat) (names : String → Option Arena.Binding)
    (stop position : Position) (newline : Bool) (a : Arena) (tokens : List Token) :
    (StatementReading.plain a (printReader names position newline stop tokens)).Renumbered g
      (.plain a (printReader names (position.renumber g) newline (stop.renumber g)
        (tokens.map (Token.renumber g)))) := by
  have hkind' := Context.kindOf?_renumber g names stop (stop.renumber g) (Token.frontOf stop tokens)
  rw [← Token.frontOf_renumber] at hkind'
  have hends' : endsBefore (Token.frontOf (stop.renumber g) (tokens.map (Token.renumber g))).kind =
      endsBefore (Token.frontOf stop tokens).kind := by
    rw [Token.frontOf_renumber, Token.renumber_kind]
  cases hends : endsBefore (Token.frontOf stop tokens).kind with
  | true =>
    refine .plain (printReader_of_ends hends) ?_
    rw [SyntaxError.renumberOutcome_ok, Statement.renumber]
    exact printReader_of_ends (hends'.trans hends)
  | false =>
    rw [hends] at hends'
    cases hkind : Context.kindOf? ⟨names, stop⟩ (Token.frontOf stop tokens) with
    | error e =>
      rw [hkind] at hkind'
      exact .plain (printReader_of_error hends hkind) (printReader_of_error hends' hkind')
    | ok found =>
      rw [hkind] at hkind'
      cases found with
      | none =>
        refine .plain (printReader_of_none hends hkind) ?_
        rw [SyntaxError.renumberOutcome_error, SyntaxError.renumber_expected,
          ← Token.frontOf_renumber]
        exact printReader_of_none hends' hkind'
      | some kind =>
        obtain ⟨outcome, left, hgives, hgives'⟩ := Expr.renumbers g names stop kind tokens
        refine .plain (printReader_of_value hends hkind hgives) ?_
        have hprint : SyntaxError.renumberOutcome g (Statement.renumber g)
            (outcome.map fun e => .print position newline (some e)) =
              (SyntaxError.renumberOutcome g (Expr.renumber g) outcome).map
                fun e => .print (position.renumber g) newline (some e) :=
          SyntaxError.renumberOutcome_map (fun e => by rw [Statement.renumber]; rfl) outcome
        rw [hprint]
        exact printReader_of_value hends' hkind' hgives'

theorem renumbered_readUnfinished (g : Nat → Nat) (site : Site) (a : Arena) (first : Token)
    (tokens : List Token) :
    (readUnfinished site a first tokens).Renumbered g
      (readUnfinished (site.renumber g) a (first.renumber g) (tokens.map (Token.renumber g))) := by
  simp only [readUnfinished, Token.renumber_kind]
  split
  case h_1 => exact renumbered_declare g site a first.position tokens
  case h_2 => exact renumbered_assign g (a.resolve? site.table) site.stop a first tokens
  case h_3 => exact renumbered_print g (a.resolve? site.table) site.stop first.position false a tokens
  case h_4 => exact renumbered_print g (a.resolve? site.table) site.stop first.position true a tokens
  case h_5 => exact .plain ⟨rfl, rfl⟩ ⟨rfl, rfl⟩

theorem renumbered_read (g : Nat → Nat) (site : Site) (a : Arena) (tokens : List Token)
    (hleaf : first.StartsLeaf) :
    (Statement.read site a first tokens).Renumbered g
      (Statement.read (site.renumber g) a (first.renumber g) (tokens.map (Token.renumber g))) := by
  have hleaf' : (first.renumber g).StartsLeaf := hleaf
  rw [read_eq_readUnfinished hleaf, read_eq_readUnfinished hleaf']
  obtain ⟨houtcome, hrest, harena⟩ := (renumbered_readUnfinished g site a first tokens).finish
  exact ⟨houtcome, hrest, harena⟩

end Statement

/-! ## Bodies -/

section body

variable {g : Nat → Nat} {site : Site} {a b : Arena} {tokens left : List Token}
variable {body : List Statement} {errors : List SyntaxError}

theorem Recovery.resync_renumber (g : Nat → Nat) (nested : Bool) (tokens : List Token) :
    resync nested (tokens.map (Token.renumber g)) =
      (resync nested tokens).map (Token.renumber g) := by
  induction tokens with
  | nil => rfl
  | cons token rest ih =>
    simp only [List.map_cons, resync, Token.renumber_kind]
    split
    · rfl
    · split
      · rfl
      · exact ih
    · rfl
    · exact ih

theorem Recovery.skipBlock_renumber (g : Nat → Nat) (stop : Position) (nested : Bool)
    (depth : Nat) (tokens : List Token) :
    skipBlock (stop.renumber g) nested depth (tokens.map (Token.renumber g)) =
      ((skipBlock stop nested depth tokens).1.map (SyntaxError.renumber g),
        (skipBlock stop nested depth tokens).2.map (Token.renumber g)) := by
  induction tokens generalizing depth with
  | nil => cases nested <;> rfl
  | cons token rest ih =>
    simp only [List.map_cons, skipBlock, Token.renumber_kind]
    split
    · cases nested <;> rfl
    · exact ih _
    · split
      · rfl
      · exact ih _
    · exact ih _

theorem Ends.renumber (h : Ends tokens left) (g : Nat → Nat) :
    Ends (tokens.map (Token.renumber g)) (left.map (Token.renumber g)) := by
  cases h with
  | input => exact .input
  | line h => exact .line h
  | before h => exact .before h

theorem Site.endErrors_renumber (g : Nat → Nat) (site : Site) (position : Position) :
    (site.renumber g).endErrors (position.renumber g) =
      (site.endErrors position).map (SyntaxError.renumber g) := by
  have hnested : (site.renumber g).nested = site.nested := rfl
  rw [Site.endErrors, Site.endErrors, hnested]
  split <;> rfl

/-- The rules of reading do not look at positions. -/
theorem BodyReads.renumber (h : BodyReads site a tokens body left b errors) (g : Nat → Nat) :
    BodyReads (site.renumber g) a (tokens.map (Token.renumber g)) (Statement.renumberAll g body)
      (left.map (Token.renumber g)) b (errors.map (SyntaxError.renumber g)) := by
  induction h with
  | ended =>
    rw [← Site.endErrors_renumber, Statement.renumberAll]
    exact .ended
  | stopped hkind =>
    rw [← Site.endErrors_renumber, Statement.renumberAll]
    exact .stopped hkind
  | blank hkind _ ih => exact .blank hkind ih
  | closed hkind hnested =>
    rw [Statement.renumberAll]
    exact .closed hkind hnested
  | stray hkind hroot _ ih => exact .stray hkind hroot ih
  | @leaf site a _ token rest _ _ _ _ hleaf hread _ ih =>
    obtain ⟨houtcome, hrest, harena⟩ := Statement.renumbered_read g site a rest hleaf
    have hleaf' : (token.renumber g).StartsLeaf := hleaf
    rw [hread] at houtcome
    rw [← hrest, ← harena] at ih
    rw [Statement.renumberAll]
    exact .leaf hleaf' houtcome ih
  | @leafFailed site a _ token rest _ _ _ _ hleaf hread hgoes _ ih =>
    obtain ⟨houtcome, hrest, harena⟩ := Statement.renumbered_read g site a rest hleaf
    have hleaf' : (token.renumber g).StartsLeaf := hleaf
    rw [hread] at houtcome
    rw [← Recovery.resync_renumber, ← hrest, ← harena] at ih
    rw [Statement.renumberAll, Statement.renumber]
    exact .leafFailed hleaf' houtcome hgoes ih
  | @leafAborted site a token rest e hleaf hread haborts =>
    obtain ⟨houtcome, hrest, harena⟩ := Statement.renumbered_read g site a rest hleaf
    have hleaf' : (token.renumber g).StartsLeaf := hleaf
    rw [hread] at houtcome
    have haborted := BodyReads.leafAborted hleaf' houtcome haborts
    have hskipped : Recovery.skipBlock (site.renumber g).stop (site.renumber g).nested 0 _ = _ :=
      Recovery.skipBlock_renumber g site.stop site.nested 0 (Statement.read site a token rest).rest
    rw [harena, hrest, hskipped, Option.toList_map] at haborted
    rw [Statement.renumberAll, Statement.renumberAll, Statement.renumber]
    exact haborted
  | @block _ _ _ _ token _ _ _ _ _ _ _ _ hkind _ ends _ ihinner ihouter =>
    rw [List.map_append, Statement.renumberAll, Statement.renumber]
    have hkind' : (token.renumber g).kind = .leftBrace := hkind
    exact .block hkind' ihinner (ends.renumber g) ihouter
  | @blockFailed site _ _ _ token found _ _ _ _ _ _ _ hkind _ goes _ ihinner ihouter =>
    rw [List.map_append, List.map_cons, Statement.renumberAll, Statement.renumber]
    rw [← Recovery.resync_renumber] at ihouter
    have hkind' : (token.renumber g).kind = .leftBrace := hkind
    have goes' : Statement.endsBefore (found.renumber g).kind = false := goes
    have inner : BodyReads ((site.renumber g).inner _) _ _ _ (found.renumber g :: _) _ _ := ihinner
    exact .blockFailed hkind' inner goes' ihouter

end body

/-! ## Programs -/

namespace Program

variable {cursor cursor' : Cursor} {left : List Token} {body : List Statement} {b : Arena}
variable {errors : List SyntaxError}

/-- The rules leave no choice. -/
theorem ofTokens_of_bodyReads
    (h : BodyReads (.outermost cursor.closing.position) (Arena.empty.openTable none).2 cursor.ahead
      body left b errors) :
    (ofTokens cursor).1.root.body = body ∧ (ofTokens cursor).1.arena = b ∧
      (ofTokens cursor).2.1 = errors := by
  obtain ⟨items, mode, rfl, hrun⟩ := Walk.run_of_bodyReads (w := .start) h rfl rfl rfl
  obtain ⟨hprogram, herrors⟩ := Walk.run_start cursor
  have hroot : (Walk.start.grown items b errors mode).nested = false := rfl
  rw [hrun, Walk.runBehind, hroot, if_neg Bool.false_ne_true] at hprogram herrors
  rw [hprogram, herrors]
  exact ⟨rfl, rfl, rfl⟩

/-- Tokens with new numbers give the same program and the same errors, with new numbers. -/
theorem ofTokens_renumber (g : Nat → Nat)
    (hahead : cursor'.ahead = cursor.ahead.map (Token.renumber g))
    (hclosing : cursor'.closing.position = cursor.closing.position.renumber g) :
    (ofTokens cursor').1 = (ofTokens cursor).1.renumber g ∧
      (ofTokens cursor').2.1 = (ofTokens cursor).2.1.map (SyntaxError.renumber g) := by
  have hreads := (bodyReads_ofTokens cursor).renumber g
  have hsite : (Site.outermost cursor.closing.position).renumber g =
      .outermost cursor'.closing.position := by
    rw [hclosing]
    rfl
  rw [← hahead, hsite] at hreads
  obtain ⟨hbody, harena, herrors⟩ := ofTokens_of_bodyReads hreads
  refine ⟨?_, herrors⟩
  rw [renumber, ← hbody, ← harena]
  rfl

end Program

end LineScript
