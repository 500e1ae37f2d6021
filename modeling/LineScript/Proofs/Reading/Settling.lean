import LineScript.Proofs.Reading.Leaves

/-!
# What may come behind a statement

A statement that is read hangs on the token behind it only as far as that token might
go on with it. Where a statement was read, it is read as well if any other token stands
there that a statement may end in front of (`Statement.settles_readUnfinished`). What it
takes stands on one line and opens no block.
-/

namespace LineScript

open Statement (endsBefore)

/-- A reading has one outcome. -/
theorem Reading.Gives.unique {α : Type} {before left left' : List Token} {r : Reading α before}
    {outcome outcome' : Except SyntaxError α} (h : r.Gives outcome left)
    (h' : r.Gives outcome' left') : outcome = outcome' ∧ left = left' :=
  ⟨h.outcome_eq.symm.trans h'.outcome_eq, h.rest_eq.symm.trans h'.rest_eq⟩

/-- If a tree was built from a part that was read, the part is there. -/
theorem Reading.Gives.of_map {α β : Type} {before before' left : List Token}
    {r : Reading β before} {part : Reading α before'} {f : α → β} {tree : β}
    (h : r.Gives (.ok tree) left) (hmap : r.Gives (part.outcome.map f) part.rest) :
    ∃ inner, tree = f inner ∧ part.Gives (.ok inner) left := by
  obtain ⟨htree, rfl⟩ := h.unique hmap
  cases hinner : part.outcome with
  | error e =>
    rw [hinner] at htree
    cases htree
  | ok inner =>
    rw [hinner] at htree
    cases htree
    exact ⟨inner, rfl, hinner, rfl⟩

/-- The token neither ends a line nor opens a block. -/
def Token.Inside (token : Token) : Prop :=
  token.kind ≠ .newline ∧ token.kind ≠ .leftBrace

theorem Token.inside_of_eq {token : Token} {kind : TokenKind} (h : token.kind = kind)
    (hkind : kind ≠ .newline ∧ kind ≠ .leftBrace) : token.Inside := by
  rw [← h] at hkind
  exact hkind

theorem Token.inside_of_isNumber {token : Token} (h : token.isNumber = true) : token.Inside := by
  obtain hkind | hkind := Token.integer_or_float h
  · exact inside_of_eq hkind (by decide)
  · exact inside_of_eq hkind (by decide)

namespace Reader

variable {α β : Type} {read : Reader α} {stop : Position} {tokens taken left : List Token}
variable {tree : α}

/-- The reader takes the tokens and gives the tree in front of every token that a
statement may end in front of. -/
structure GivesBefore (read : Reader α) (taken : List Token) (tree : α) : Prop where
  inside : ∀ token ∈ taken, token.Inside
  gives : ∀ (stop : Position) (left : List Token),
    endsBefore (Token.frontOf stop left).kind = true →
      (read stop (taken ++ left)).Gives (.ok tree) left

/-- What the reader reads from these tokens is read in front of any end as well. -/
def Settles (read : Reader α) (stop : Position) (tokens : List Token) : Prop :=
  ∀ ⦃tree left⦄, (read stop tokens).Gives (.ok tree) left →
    ∃ taken, tokens = taken ++ left ∧ read.GivesBefore taken tree

theorem Settles.of_append (h : read.Settles stop (taken ++ left))
    (hgives : (read stop (taken ++ left)).Gives (.ok tree) left) :
    read.GivesBefore taken tree := by
  obtain ⟨taken', htaken, hbefore⟩ := h hgives
  rwa [List.append_cancel_right htaken]

/-- A chain ends with its last part. The parts before it are followed by an operator,
which is still there. -/
theorem Chains.settles {part : Reader α} {whole : Reader β} {op? : TokenKind → Option Operator}
    {single : α → β} {chain : α → Operator → β → β} (h : Chains part op? single chain whole)
    (hend : ∀ kind, endsBefore kind = true → op? kind = none) (hbrace : op? .leftBrace = none)
    (hforesees : part.Foresees stop tokens) (hpart : part.Settles stop tokens)
    (hlater : ∀ later : List Token, later.length < tokens.length → whole.Settles stop later) :
    whole.Settles stop tokens := by
  intro tree left hgives
  obtain ⟨taken, rest, outcome, rfl, hanswers⟩ := hforesees
  have hfirst := hanswers.gives stop rest rfl
  cases outcome with
  | error e => cases (hgives.unique (h.failed hfirst)).1
  | ok first =>
    have hbefore := hpart.of_append hfirst
    cases hop : op? (Token.frontOf stop rest).kind with
    | none =>
      obtain ⟨⟨⟩, rfl⟩ := hgives.unique (h.ended hfirst hop)
      refine ⟨taken, rfl, hbefore.inside, fun stop' left' hends => ?_⟩
      exact h.ended (hbefore.gives stop' left' hends) (hend _ hends)
    | some op =>
      cases rest with
      | nil =>
        rw [Token.frontOf_nil, Token.endAt, hend _ rfl] at hop
        cases hop
      | cons sign later =>
        obtain ⟨more, rfl, hmore⟩ := hgives.of_map (h.goesOn hfirst hop ⟨rfl, rfl⟩)
        obtain ⟨taken', rfl, hbefore'⟩ := hlater later (by simp; omega) hmore
        rw [Token.frontOf_cons] at hop
        have hsign : sign.Inside := by
          constructor
          · intro hkind
            rw [hkind, hend _ rfl] at hop
            cases hop
          · intro hkind
            rw [hkind, hbrace] at hop
            cases hop
        refine ⟨taken ++ sign :: taken', by simp, ?_, fun stop' left' hends => ?_⟩
        · exact List.forall_mem_append.mpr
            ⟨hbefore.inside, List.forall_mem_cons.mpr ⟨hsign, hbefore'.inside⟩⟩
        · rw [List.append_assoc]
          exact h.goesOn (hanswers.gives stop' (sign :: (taken' ++ left')) rfl) hop
            (hbefore'.gives stop' left' hends)

end Reader

/-! ## Expressions -/

section numeric

variable {names : String → Option Arena.Binding} {stop : Position} {token : Token}
variable {tokens rest : List Token}

namespace Factor

theorem settles_of_number (taken : List Token) {sign : String}
    (hinside : ∀ t ∈ taken, t.Inside)
    (h : ∀ stop rest, (reader names stop (taken ++ rest)).Gives
      ((token.number sign).map .literal) rest) :
    (reader names).Settles stop (taken ++ rest) := by
  intro tree left hgives
  obtain ⟨htree, rfl⟩ := hgives.unique (h stop rest)
  refine ⟨taken, rfl, hinside, fun stop' left' _ => ?_⟩
  rw [htree]
  exact h stop' left'

theorem settles_dash (h : token.kind = .dash) (hrest : (reader names).Settles stop rest) :
    (reader names).Settles stop (token :: rest) := by
  by_cases hnumber : (Token.frontOf stop rest).isNumber = true
  · cases rest with
    | nil => cases hnumber
    | cons next later =>
      have hinside : ∀ t ∈ [token, next], t.Inside := by
        simpa using ⟨Token.inside_of_eq h (by decide), Token.inside_of_isNumber hnumber⟩
      exact settles_of_number [token, next] hinside fun _ _ => reader_of_signed h hnumber
  rw [Bool.not_eq_true] at hnumber
  intro tree left hgives
  have hwhole : (reader names stop (token :: rest)).Gives _ _ :=
    reader_of_negate h hnumber ⟨rfl, rfl⟩
  obtain ⟨inner, rfl, hinner⟩ := hgives.of_map hwhole
  obtain ⟨taken, rfl, hbefore⟩ := hrest hinner
  have hdash : token.Inside := Token.inside_of_eq h (by decide)
  refine ⟨token :: taken, rfl, List.forall_mem_cons.mpr ⟨hdash, hbefore.inside⟩, ?_⟩
  intro stop' left' hends
  have hnumber' : (Token.frontOf stop' (taken ++ left')).isNumber = false := by
    cases taken with
    | nil =>
      unfold Token.isNumber
      unfold endsBefore at hends
      split at hends <;> simp_all
    | cons next taken => exact hnumber
  exact reader_of_negate h hnumber' (hbefore.gives stop' left' hends)

theorem settles_paren (h : token.kind = .leftParen)
    (hrest : (NumExpr.reader names).Settles stop rest) :
    (reader names).Settles stop (token :: rest) := by
  intro tree left hgives
  obtain ⟨taken, later, outcome, rfl, hanswers⟩ := (numeric_foresees names stop rest).1
  have hinner := hanswers.gives stop later rfl
  cases outcome with
  | error e => cases (hgives.unique (reader_of_paren_error h hinner)).1
  | ok inner =>
    by_cases hclose : (Token.frontOf stop later).kind = .rightParen
    case neg => cases (hgives.unique (reader_of_paren_unclosed h hinner hclose)).1
    case pos =>
      cases later with
      | nil => cases hclose
      | cons close later =>
        obtain ⟨⟨⟩, rfl⟩ := hgives.unique (reader_of_paren h hinner hclose)
        have hopen : token.Inside := Token.inside_of_eq h (by decide)
        have hclosed : ∀ t ∈ [close], t.Inside := by
          simpa using Token.inside_of_eq hclose (by decide)
        have hinside := (hrest.of_append hinner).inside
        refine ⟨token :: (taken ++ [close]), by simp, ?_, fun stop' left' _ => ?_⟩
        · exact List.forall_mem_cons.mpr ⟨hopen, List.forall_mem_append.mpr ⟨hinside, hclosed⟩⟩
        · rw [List.cons_append, List.append_assoc]
          exact reader_of_paren h (hanswers.gives stop' (close :: left') rfl) hclose

theorem settles_reference (h : token.kind = .identifier) :
    (reader names).Settles stop (token :: rest) := by
  intro tree left hgives
  cases href : Context.reference ⟨names, stop⟩ .number token with
  | error e => cases (hgives.unique (reader_of_reference_error h href)).1
  | ok ref =>
    obtain ⟨⟨⟩, rfl⟩ := hgives.unique (reader_of_reference h href)
    have hinside : ∀ t ∈ [token], t.Inside := by simpa using Token.inside_of_eq h (by decide)
    exact ⟨[token], rfl, hinside, fun _ _ _ => reader_of_reference h href⟩

theorem settles_of_num
    (hfactor : ∀ later : List Token, later.length < tokens.length →
      (reader names).Settles stop later)
    (hnum : ∀ later : List Token, later.length < tokens.length →
      (NumExpr.reader names).Settles stop later) : (reader names).Settles stop tokens := by
  cases hbegins : begins (Token.frontOf stop tokens).kind with
  | false =>
    intro tree left hgives
    cases (hgives.unique (reader_of_other hbegins)).1
  | true =>
    cases tokens with
    | nil => cases hbegins
    | cons token rest =>
      rw [Token.frontOf_cons] at hbegins
      have hrest : rest.length < (token :: rest).length := Nat.lt_succ_self _
      by_cases hnumber : token.isNumber = true
      · have hinside : ∀ t ∈ [token], t.Inside := by simpa using Token.inside_of_isNumber hnumber
        exact settles_of_number [token] hinside fun _ _ => reader_of_number hnumber
      unfold begins at hbegins
      split at hbegins
      case h_1 hkind => exact absurd (by simp [Token.isNumber, hkind]) hnumber
      case h_2 hkind => exact absurd (by simp [Token.isNumber, hkind]) hnumber
      case h_3 hkind => exact settles_dash hkind (hfactor rest hrest)
      case h_4 hkind => exact settles_paren hkind (hnum rest hrest)
      case h_5 hkind => exact settles_reference hkind
      case h_6 => cases hbegins

end Factor

theorem numeric_settles (names : String → Option Arena.Binding) (stop : Position)
    (tokens : List Token) :
    (NumExpr.reader names).Settles stop tokens ∧ (Term.reader names).Settles stop tokens ∧
      (Factor.reader names).Settles stop tokens := by
  have hsum (kind : TokenKind) (h : endsBefore kind = true) : Operator.sum? kind = none :=
    (Operator.none_of_endsBefore h).1
  have hproduct (kind : TokenKind) (h : endsBefore kind = true) :
      Operator.product? kind = none := (Operator.none_of_endsBefore h).2.1
  induction hn : tokens.length using Nat.strongRecOn generalizing tokens with
  | ind n ih =>
    subst hn
    have hforesees := numeric_foresees names stop tokens
    have hfactor := Factor.settles_of_num (fun later h => (ih _ h later rfl).2.2)
      (fun later h => (ih _ h later rfl).1)
    have hterm := (Term.chains_reader names).settles hproduct rfl hforesees.2.2 hfactor
      fun later h => (ih _ h later rfl).2.1
    exact ⟨(NumExpr.chains_reader names).settles hsum rfl hforesees.2.1 hterm
      fun later h => (ih _ h later rfl).1, hterm, hfactor⟩

end numeric

section text

variable (names : String → Option Arena.Binding) (stop : Position) (tokens : List Token)

theorem StringOperand.settles : (StringOperand.reader names).Settles stop tokens := by
  intro operand left hgives
  obtain ⟨token, rfl, hread⟩ := reader_gives_ok_iff.mp hgives
  have hinside : ∀ t ∈ [token], t.Inside := by
    rw [List.forall_mem_singleton]
    constructor
    · intro hkind
      simp [StringOperand.read, hkind] at hread
    · intro hkind
      simp [StringOperand.read, hkind] at hread
  exact ⟨[token], rfl, hinside, fun _ _ _ => reader_gives_ok_iff.mpr ⟨token, rfl, hread⟩⟩

theorem StringExpr.settles : (StringExpr.reader names).Settles stop tokens := by
  have hjoin (kind : TokenKind) (h : endsBefore kind = true) : Operator.join? kind = none :=
    (Operator.none_of_endsBefore h).2.2
  induction hn : tokens.length using Nat.strongRecOn generalizing tokens with
  | ind n ih =>
    subst hn
    exact (StringExpr.chains_reader names).settles hjoin rfl
      (StringOperand.foresees names stop tokens) (StringOperand.settles names stop tokens)
      fun later h => ih _ h later rfl

end text

namespace Expr

variable {names : String → Option Arena.Binding} {kind : Kind} {stop : Position}
variable {tokens left : List Token} {e : Expr}

/-- The kind of an expression is that of its first token, which is not its end. -/
theorem kindOf?_of_gives (h : (reader names kind stop tokens).Gives (.ok e) left) :
    Context.kindOf? ⟨names, stop⟩ (Token.frontOf stop tokens) = .ok (some kind) ∧
      endsBefore (Token.frontOf stop tokens).kind = false := by
  have hkind := Statement.kindOf?_of_read h.outcome_eq
  rwa [Context.front_eq] at hkind

/-- What an expression takes begins with the token that tells its kind. -/
theorem kindOf?_of_givesBefore {taken : List Token}
    (h : (reader names kind).GivesBefore taken e) (stop : Position) (left : List Token) :
    Context.kindOf? ⟨names, stop⟩ (Token.frontOf stop (taken ++ left)) = .ok (some kind) ∧
      endsBefore (Token.frontOf stop (taken ++ left)).kind = false := by
  have hempty := kindOf?_of_gives (h.gives stop [] rfl)
  cases taken with
  | nil => cases hempty.2
  | cons first taken => exact hempty

theorem settles_of_part {α : Type} {part : Reader α} {f : α → Expr}
    (hpart : part.Settles stop tokens)
    (hempty : ∀ stop inner left, ¬ (part stop []).Gives (.ok inner) left)
    (hwhole : ∀ {stop tokens outcome left},
      Context.kindOf? ⟨names, stop⟩ (Token.frontOf stop tokens) = .ok (some kind) →
        (part stop tokens).Gives outcome left →
        (reader names kind stop tokens).Gives (outcome.map f) left) :
    (reader names kind).Settles stop tokens := by
  intro e left hgives
  have hkind := (kindOf?_of_gives hgives).1
  obtain ⟨inner, rfl, hinner⟩ := hgives.of_map (hwhole hkind ⟨rfl, rfl⟩)
  obtain ⟨taken, rfl, hbefore⟩ := hpart hinner
  refine ⟨taken, rfl, hbefore.inside, fun stop' left' hends => ?_⟩
  cases taken with
  | nil => exact absurd (hbefore.gives stop [] rfl) (hempty stop inner [])
  | cons first taken =>
    have hkind' : Context.kindOf? ⟨names, stop'⟩ first = .ok (some kind) := hkind
    exact hwhole hkind' (hbefore.gives stop' left' hends)

theorem settles (names : String → Option Arena.Binding) (kind : Kind) (stop : Position)
    (tokens : List Token) : (reader names kind).Settles stop tokens := by
  cases kind with
  | number =>
    refine settles_of_part (numeric_settles names stop tokens).1 ?_ reader_of_number
    intro stop inner left hgives
    have hfactor : (Factor.reader names stop []).Gives (.error _) [] := Factor.reader_of_other rfl
    have hfails := (NumExpr.chains_reader names).failed ((Term.chains_reader names).failed hfactor)
    cases (hgives.unique hfails).1
  | string =>
    refine settles_of_part (StringExpr.settles names stop tokens) ?_ reader_of_string
    intro stop inner left hgives
    cases hgives.outcome_eq

end Expr

/-! ## Statements -/

namespace Statement

variable {names : String → Option Arena.Binding} {site : Site} {a : Arena} {first : Token}
variable {stop position : Position} {tokens left : List Token} {statement : Statement}

theorem settles_initial (names : String → Option Arena.Binding) (kind : Kind) (stop : Position)
    (tokens : List Token) : (initialReader names kind).Settles stop tokens := by
  intro initial left hgives
  by_cases hequals : (Token.frontOf stop tokens).kind = .equals
  · cases tokens with
    | nil => cases hequals
    | cons token rest =>
      obtain ⟨e, rfl, he⟩ := hgives.of_map (initialReader_of_value hequals ⟨rfl, rfl⟩)
      obtain ⟨taken, rfl, hbefore⟩ := Expr.settles names kind stop rest he
      have hinside : token.Inside := Token.inside_of_eq hequals (by decide)
      exact ⟨token :: taken, rfl, List.forall_mem_cons.mpr ⟨hinside, hbefore.inside⟩,
        fun stop' left' hends =>
          initialReader_of_value hequals (hbefore.gives stop' left' hends)⟩
  · obtain ⟨⟨⟩, rfl⟩ := hgives.unique (initialReader_of_none hequals)
    refine ⟨[], rfl, by simp, fun stop' left' hends => initialReader_of_none ?_⟩
    intro hequals'
    rw [List.nil_append] at hequals'
    rw [hequals'] at hends
    cases hends

theorem settles_assign (names : String → Option Arena.Binding) (target : Token) (stop : Position)
    (tokens : List Token) : (assignReader names target).Settles stop tokens := by
  intro statement left hgives
  cases htarget : names target.literal with
  | none =>
    have hfails := hgives.outcome_eq
    simp only [assignReader, readAssign, htarget] at hfails
    cases hfails
  | some binding =>
    cases hop : compound? (Token.frontOf stop tokens).kind with
    | none => cases (hgives.unique (assignReader_of_none htarget hop)).1
    | some compound =>
      cases tokens with
      | nil => cases hop
      | cons op rest =>
        obtain ⟨e, rfl, he⟩ := hgives.of_map (assignReader_of_value htarget hop ⟨rfl, rfl⟩)
        obtain ⟨taken, rfl, hbefore⟩ := Expr.settles names binding.kind stop rest he
        have hinside : op.Inside := by
          rw [Token.frontOf_cons] at hop
          constructor
          · intro hkind
            rw [hkind] at hop
            cases hop
          · intro hkind
            rw [hkind] at hop
            cases hop
        exact ⟨op :: taken, rfl, List.forall_mem_cons.mpr ⟨hinside, hbefore.inside⟩,
          fun stop' left' hends =>
            assignReader_of_value htarget hop (hbefore.gives stop' left' hends)⟩

theorem settles_print (names : String → Option Arena.Binding) (position : Position)
    (newline : Bool) (stop : Position) (tokens : List Token) :
    (printReader names position newline).Settles stop tokens := by
  intro statement left hgives
  cases hends : endsBefore (Token.frontOf stop tokens).kind with
  | true =>
    obtain ⟨⟨⟩, rfl⟩ := hgives.unique (printReader_of_ends hends)
    exact ⟨[], rfl, by simp, fun stop' left' => printReader_of_ends⟩
  | false =>
    cases hkind : Context.kindOf? ⟨names, stop⟩ (Token.frontOf stop tokens) with
    | error e => cases (hgives.unique (printReader_of_error hends hkind)).1
    | ok found =>
      cases found with
      | none => cases (hgives.unique (printReader_of_none hends hkind)).1
      | some kind =>
        obtain ⟨e, rfl, he⟩ := hgives.of_map (printReader_of_value hends hkind ⟨rfl, rfl⟩)
        obtain ⟨taken, rfl, hbefore⟩ := Expr.settles names kind stop tokens he
        refine ⟨taken, rfl, hbefore.inside, fun stop' left' hends' => ?_⟩
        obtain ⟨hkind', hgoes⟩ := Expr.kindOf?_of_givesBefore hbefore stop' left'
        exact printReader_of_value hgoes hkind' (hbefore.gives stop' left' hends')

/-- Before its end is looked at, the statement takes the tokens in front of every token
that it may end in front of. -/
structure Settled (site : Site) (a : Arena) (first : Token) (taken : List Token)
    (statement : Statement) (b : Arena) : Prop where
  inside : ∀ token ∈ taken, token.Inside
  gives : ∀ (stop : Position) (left : List Token),
    endsBefore (Token.frontOf stop left).kind = true →
      (readUnfinished { site with stop } a first (taken ++ left)).Gives (.ok statement) left ∧
        (readUnfinished { site with stop } a first (taken ++ left)).arena = b

/-- A statement that a reader reads without touching the arena. -/
theorem settled_of_reader {read : Reader Statement} (h : read.Settles stop tokens)
    (hread : ∀ stop tokens, readUnfinished { site with stop } a first tokens =
      .plain a (read stop tokens))
    (hgives : (readUnfinished { site with stop } a first tokens).Gives (.ok statement) left) :
    ∃ taken, tokens = taken ++ left ∧ Settled site a first taken statement
      (readUnfinished { site with stop } a first tokens).arena := by
  rw [hread] at hgives ⊢
  obtain ⟨taken, rfl, hbefore⟩ := h ⟨hgives.outcome_eq, hgives.rest_eq⟩
  refine ⟨taken, rfl, hbefore.inside, fun stop' left' hends => ?_⟩
  obtain ⟨hout, hrest⟩ := hbefore.gives stop' left' hends
  rw [hread]
  exact ⟨⟨hout, hrest⟩, rfl⟩

theorem settled_declare (hfirst : first.kind = .keyword .var)
    (hgives : (readUnfinished { site with stop } a first tokens).Gives (.ok statement) left) :
    ∃ taken, tokens = taken ++ left ∧ Settled site a first taken statement
      (readUnfinished { site with stop } a first tokens).arena := by
  have hread (stop : Position) (tokens : List Token) :
      readUnfinished { site with stop } a first tokens =
        readDeclare { site with stop } a first.position tokens := by
    simp only [readUnfinished, hfirst]
  rw [hread] at hgives ⊢
  obtain ⟨name, type, rest, kind, rfl, hname, htype, hfree⟩ | ⟨e, he, -⟩ :=
    readDeclare_free_or_error { site with stop } a first.position tokens
  · rw [readDeclare_of_free hname htype hfree] at hgives ⊢
    obtain ⟨initial, rfl, hinitial⟩ : ∃ initial,
        statement = .declare first.position name.literal
          (a.declare site.table (.declared name.literal kind)).1 kind initial ∧
        (initialReader (a.resolve? site.table) kind stop rest).Gives (.ok initial) left :=
      hgives.of_map ⟨rfl, rfl⟩
    obtain ⟨taken, rfl, hbefore⟩ := settles_initial _ kind stop rest hinitial
    have hname' : name.Inside := Token.inside_of_eq hname (by decide)
    have htype' : type.Inside :=
      Token.inside_of_eq (typeWord?_eq_some_iff.mp htype) (by cases kind <;> decide)
    refine ⟨name :: type :: taken, rfl, ?_, fun stop' left' hends => ?_⟩
    · exact List.forall_mem_cons.mpr ⟨hname', List.forall_mem_cons.mpr ⟨htype', hbefore.inside⟩⟩
    · obtain ⟨hout, hrest⟩ := hbefore.gives stop' left' hends
      rw [hread, List.cons_append, List.cons_append, readDeclare_of_free hname htype hfree]
      exact ⟨⟨congrArg (Except.map _) hout, hrest⟩, rfl⟩
  · rw [hgives.outcome_eq] at he
    cases he

/-- A statement that is read in front of one token is read in front of every token that
it may end in front of. -/
theorem settles_readUnfinished
    (hgives : (readUnfinished { site with stop } a first tokens).Gives (.ok statement) left) :
    ∃ taken, tokens = taken ++ left ∧ Settled site a first taken statement
      (readUnfinished { site with stop } a first tokens).arena := by
  by_cases hvar : first.kind = .keyword .var
  · exact settled_declare hvar hgives
  by_cases hname : first.kind = .identifier
  · refine settled_of_reader (settles_assign (a.resolve? site.table) first stop tokens) ?_ hgives
    intro stop' tokens'
    simp only [readUnfinished, hname]
    rfl
  by_cases hprint : first.kind = .keyword .print
  · refine settled_of_reader
      (settles_print (a.resolve? site.table) first.position false stop tokens) ?_ hgives
    intro stop' tokens'
    simp only [readUnfinished, hprint]
    rfl
  by_cases hprintln : first.kind = .keyword .println
  · refine settled_of_reader
      (settles_print (a.resolve? site.table) first.position true stop tokens) ?_ hgives
    intro stop' tokens'
    simp only [readUnfinished, hprintln]
    rfl
  have hfails := hgives.outcome_eq
  simp only [readUnfinished] at hfails
  cases hfails

end Statement

end LineScript
