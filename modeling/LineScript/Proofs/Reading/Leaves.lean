import LineScript.Proofs.Reading.Lookahead
import LineScript.Proofs.Reading.Statements

/-!
# Lookahead of statements

A statement that holds no statements sees no further than an expression does: the
tokens that it takes and one more. Its line end is the exception, for behind it
nothing is looked at. `LeafTurn` lists the three ways in which such a statement can
go, and what each of them depends on; `exists_leafTurn` finds the way for any tokens.
-/

namespace LineScript

/-- No operator stands where a statement may end. -/
theorem Operator.none_of_endsBefore {kind : TokenKind} (h : Statement.endsBefore kind = true) :
    sum? kind = none ∧ product? kind = none ∧ join? kind = none := by
  unfold Statement.endsBefore at h
  split at h <;> first | exact ⟨rfl, rfl, rfl⟩ | cases h

/-- The tokens stand on one line, whose end can only be the last of them. -/
def Token.OneLine (tokens : List Token) : Prop :=
  ∀ token ∈ tokens.dropLast, token.kind ≠ .newline

namespace Token

theorem oneLine_concat {tokens : List Token} {last : Token} :
    OneLine (tokens ++ [last]) ↔ ∀ token ∈ tokens, token.kind ≠ .newline := by
  rw [OneLine, List.dropLast_concat]

theorem OneLine.append {tokens later : List Token}
    (h : ∀ token ∈ tokens, token.kind ≠ .newline) (hlater : OneLine later) :
    OneLine (tokens ++ later) := by
  intro token htoken
  cases later with
  | nil =>
    rw [List.append_nil] at htoken
    exact h token (List.dropLast_subset tokens htoken)
  | cons first later =>
    rw [List.dropLast_append_cons] at htoken
    exact (List.mem_append.mp htoken).elim (h token) (hlater token)

theorem OneLine.cons {first : Token} {later : List Token} (h : first.kind ≠ .newline)
    (hlater : OneLine later) : OneLine (first :: later) :=
  append (List.forall_mem_singleton.mpr h) hlater

/-- The first token and those taken behind it are a declaration without a name or
without a type. -/
def Abandons (first : Token) (taken : List Token) : Prop :=
  first.kind = .keyword .var ∧ ∀ token ∈ taken, token.kind = .identifier

end Token

namespace Statement

variable {site : Site} {a b : Arena} {first : Token} {stop : Position} {tokens : List Token}

/-- Before its end is looked at, the statement that `first` begins takes the tokens, gives
the outcome and leaves the arena `b`, whenever `next` comes behind them. -/
structure LeafAnswers (site : Site) (a : Arena) (first : Token) (taken : List Token) (next : Token)
    (outcome : Except SyntaxError Statement) (b : Arena) : Prop where
  inLine : ∀ token ∈ taken, token.kind ≠ .newline
  located : ∀ ⦃e⦄, outcome = .error e → e.At (first :: (taken ++ [next]))
  aborts : ∀ ⦃e⦄, outcome = .error e → e.abortsBlock = true → first.Abandons taken ∧ b = a
  gives : ∀ (stop : Position) (rest : List Token), Token.frontOf stop rest = next →
    (readUnfinished { site with stop } a first (taken ++ rest)).Gives outcome rest ∧
      (readUnfinished { site with stop } a first (taken ++ rest)).arena = b

def LeafForesees (site : Site) (a : Arena) (first : Token) (stop : Position)
    (tokens : List Token) : Prop :=
  ∃ taken rest outcome b, tokens = taken ++ rest ∧
    LeafAnswers site a first taken (Token.frontOf stop rest) outcome b

/-- A statement that a reader reads without touching the arena. -/
theorem LeafForesees.of_reader {read : Reader Statement} (h : read.Foresees stop tokens)
    (hread : ∀ stop tokens, readUnfinished { site with stop } a first tokens =
      .plain a (read stop tokens)) : LeafForesees site a first stop tokens := by
  obtain ⟨taken, rest, outcome, rfl, hanswers⟩ := h
  refine ⟨taken, rest, outcome, a, rfl, hanswers.inLine, ?_, ?_, ?_⟩
  · intro e he
    exact (hanswers.minor he).located.mono (List.subset_cons_self _ _)
  · intro e he haborts
    rw [(hanswers.minor he).goesOn] at haborts
    cases haborts
  · intro stop' rest' hnext
    rw [hread]
    obtain ⟨hout, hrest⟩ := hanswers.gives stop' rest' hnext
    exact ⟨⟨hout, hrest⟩, rfl⟩

/-- A statement that fails and leaves the arena alone. -/
theorem LeafForesees.of_error {rest : List Token} (taken : List Token) (e : SyntaxError)
    (hline : ∀ token ∈ taken, token.kind ≠ .newline)
    (hat : e.At (first :: (taken ++ [Token.frontOf stop rest])))
    (haborts : e.abortsBlock = true → first.Abandons taken)
    (h : ∀ stop' rest', Token.frontOf stop' rest' = Token.frontOf stop rest →
      ∃ r : Reading Statement (taken ++ rest'), r.Gives (.error e) rest' ∧
        readUnfinished { site with stop := stop' } a first (taken ++ rest') = .plain a r) :
    LeafForesees site a first stop (taken ++ rest) := by
  refine ⟨taken, rest, .error e, a, rfl, hline, ?_, ?_, ?_⟩
  · rintro _ ⟨⟩
    exact hat
  · rintro _ ⟨⟩ h
    exact ⟨haborts h, rfl⟩
  · intro stop' rest' hnext
    obtain ⟨r, ⟨hout, hrest⟩, hread⟩ := h stop' rest' hnext
    rw [hread]
    exact ⟨⟨hout, hrest⟩, rfl⟩

/-! ## Declarations -/

section declare

variable {names : String → Option Arena.Binding} {kind : Kind} {token name type : Token}
variable {rest left : List Token}

def initialReader (names : String → Option Arena.Binding) (kind : Kind) : Reader (Option Expr) :=
  fun stop tokens => readInitial ⟨names, stop⟩ kind tokens

theorem initialReader_of_value {outcome : Except SyntaxError Expr} (h : token.kind = .equals)
    (hread : (Expr.reader names kind stop rest).Gives outcome left) :
    (initialReader names kind stop (token :: rest)).Gives (outcome.map some) left := by
  obtain ⟨rfl, rfl⟩ := hread
  simp only [initialReader, readInitial, h, if_true]
  exact ⟨rfl, rfl⟩

theorem initialReader_of_none (h : (Token.frontOf stop tokens).kind ≠ .equals) :
    (initialReader names kind stop tokens).Gives (.ok none) tokens := by
  cases tokens with
  | nil => exact ⟨rfl, rfl⟩
  | cons token rest =>
    rw [Token.frontOf_cons] at h
    simp only [initialReader, readInitial, h, if_false]
    exact ⟨rfl, rfl⟩

theorem foresees_initial (names : String → Option Arena.Binding) (kind : Kind) (stop : Position)
    (tokens : List Token) : (initialReader names kind).Foresees stop tokens := by
  by_cases hequals : (Token.frontOf stop tokens).kind = .equals
  · cases tokens with
    | nil => cases hequals
    | cons token rest =>
      rw [Token.frontOf_cons] at hequals
      obtain ⟨taken, left, outcome, rfl, hanswers⟩ := Expr.foresees names kind stop rest
      have hline : ∀ t ∈ [token], t.kind ≠ .newline := by simp [hequals]
      exact ⟨[token] ++ taken, left, _, rfl,
        hanswers.map some hline fun _ _ _ hgives => initialReader_of_value hequals hgives⟩
  · refine .stay (.ok none) (by simp) ?_
    intro stop' tokens' hnext
    rw [← hnext] at hequals
    exact initialReader_of_none hequals

/-- Without a name nothing is declared. -/
theorem readDeclare_of_noName {position : Position}
    (hname : (Token.frontOf stop tokens).kind ≠ .identifier) :
    readDeclare { site with stop } a position tokens =
      .plain a (.stay tokens (.error (.malformed (Token.frontOf stop tokens)
        (.noName (Token.frontOf stop tokens).describe)))) := by
  simp only [readDeclare, Site.context, Context.front_eq, hname, if_false]

/-- Without a type word nothing is declared. -/
theorem readDeclare_of_noType {position : Position} (hname : name.kind = .identifier)
    (htype : typeWord? (Token.frontOf stop tokens).kind = none) :
    readDeclare { site with stop } a position (name :: tokens) =
      .plain a ((Reading.stay tokens (.error (.malformed (Token.frontOf stop tokens)
        (.noType name.literal (Token.frontOf stop tokens).describe)))).behind name) := by
  simp only [readDeclare, Site.context, Context.front_eq, Token.frontOf_cons, hname, if_true,
    List.tail_cons, htype]
  rfl

/-- A name that its block has is not declared again. -/
theorem readDeclare_of_bound {position : Position} {id : SymbolId} (hname : name.kind = .identifier)
    (htype : typeWord? type.kind = some kind)
    (hbound : a.getLocal site.table name.literal = .ok (some id)) :
    readDeclare { site with stop } a position (name :: type :: rest) =
      .plain a (((Reading.stay rest (.error (.redeclared name))).behind type).behind name) := by
  simp only [readDeclare, Site.context, Context.front_eq, Token.frontOf_cons, hname, if_true,
    List.tail_cons, htype, hbound]
  rfl

/-- A new name is declared, whatever its first value is. -/
theorem readDeclare_of_free {position : Position} (hname : name.kind = .identifier)
    (htype : typeWord? type.kind = some kind)
    (hfree : ∀ id, a.getLocal site.table name.literal ≠ .ok (some id)) :
    let declared := a.declare site.table (.declared name.literal kind)
    readDeclare { site with stop } a position (name :: type :: rest) =
      .plain declared.2 ((((initialReader (a.resolve? site.table) kind stop rest).map
        (.declare position name.literal declared.1 kind)).behind type).behind name) := by
  simp only [readDeclare, Site.context, Context.front_eq, Token.frontOf_cons, hname, if_true,
    List.tail_cons, htype]
  rfl

/-- Behind the type word a declaration fails because its name is taken, or is seen from
its first value. -/
theorem leafForesees_of_type
    (hread : ∀ stop tokens, readUnfinished { site with stop } a first tokens =
      readDeclare { site with stop } a first.position tokens)
    (hname : name.kind = .identifier) (htype : typeWord? type.kind = some kind) :
    LeafForesees site a first stop (name :: type :: rest) := by
  have hline : ∀ t ∈ [name, type], t.kind ≠ .newline := by
    have htype' : type.kind ≠ .newline := by
      intro hkind
      rw [hkind] at htype
      cases htype
    simp [hname, htype']
  by_cases hbound : ∃ id, a.getLocal site.table name.literal = .ok (some id)
  · obtain ⟨id, hbound⟩ := hbound
    refine .of_error [name, type] (.redeclared name) hline ⟨name, by simp, rfl⟩ nofun ?_
    intro stop' rest' _
    exact ⟨_, ⟨rfl, rfl⟩, (hread _ _).trans (readDeclare_of_bound hname htype hbound)⟩
  · rw [not_exists] at hbound
    obtain ⟨taken, left, outcome, rfl, hanswers⟩ :=
      foresees_initial (a.resolve? site.table) kind stop rest
    let declared := a.declare site.table (.declared name.literal kind)
    refine ⟨[name, type] ++ taken, left,
      outcome.map (.declare first.position name.literal declared.1 kind), declared.2, rfl,
      ?_, ?_, ?_, ?_⟩
    · exact fun t ht => (List.mem_append.mp ht).elim (hline t) (hanswers.inLine t)
    · intro e he
      cases outcome with
      | ok tree => cases he
      | error e' =>
        cases he
        refine (hanswers.minor rfl).located.mono ?_
        exact fun t ht => List.mem_cons_of_mem first (List.mem_append_right [name, type] ht)
    · intro e he haborts
      cases outcome with
      | ok tree => cases he
      | error e' =>
        cases he
        rw [(hanswers.minor rfl).goesOn] at haborts
        cases haborts
    · intro stop' rest' hnext
      obtain ⟨rfl, hrest⟩ := hanswers.gives stop' rest' hnext
      rw [hread, List.append_assoc]
      simp only [List.cons_append, List.nil_append]
      rw [readDeclare_of_free hname htype hbound]
      exact ⟨⟨rfl, hrest⟩, rfl⟩

/-- A declaration is seen from its name, its type word and its first value. -/
theorem leafForesees_declare (hfirst : first.kind = .keyword .var) :
    LeafForesees site a first stop tokens := by
  have hread (stop : Position) (tokens : List Token) :
      readUnfinished { site with stop } a first tokens =
        readDeclare { site with stop } a first.position tokens := by
    simp only [readUnfinished, hfirst]
  by_cases hname : (Token.frontOf stop tokens).kind = .identifier
  case neg =>
    let found := Token.frontOf stop tokens
    refine .of_error [] (.malformed found (.noName found.describe)) (by simp)
      ⟨found, by simp [found], rfl⟩ (fun _ => ⟨hfirst, by simp⟩) ?_
    intro stop' rest' hnext
    rw [← hnext] at hname
    simp only [found, ← hnext]
    exact ⟨_, ⟨rfl, rfl⟩, (hread _ _).trans (readDeclare_of_noName hname)⟩
  case pos =>
    cases tokens with
    | nil => cases hname
    | cons name tokens =>
      rw [Token.frontOf_cons] at hname
      cases htype : typeWord? (Token.frontOf stop tokens).kind with
      | none =>
        let found := Token.frontOf stop tokens
        refine .of_error [name] (.malformed found (.noType name.literal found.describe))
          (by simp [hname]) ⟨found, by simp [found], rfl⟩ (fun _ => ⟨hfirst, by simp [hname]⟩) ?_
        intro stop' rest' hnext
        rw [← hnext] at htype
        simp only [found, ← hnext]
        exact ⟨_, ⟨rfl, rfl⟩, (hread _ _).trans (readDeclare_of_noType hname htype)⟩
      | some kind =>
        cases tokens with
        | nil => cases htype
        | cons type rest =>
          rw [Token.frontOf_cons] at htype
          exact leafForesees_of_type hread hname htype

end declare

/-! ## Assignments and output -/

section plain

variable {names : String → Option Arena.Binding} {target : Token} {binding : Arena.Binding}
variable {rest left : List Token} {compound newline : Bool} {position : Position}

def assignReader (names : String → Option Arena.Binding) (target : Token) : Reader Statement :=
  fun stop tokens => readAssign ⟨names, stop⟩ target tokens

theorem assignReader_of_none (htarget : names target.literal = some binding)
    (hop : compound? (Token.frontOf stop tokens).kind = none) :
    (assignReader names target stop tokens).Gives
      (.error (.expected .assignmentOperator (Token.frontOf stop tokens))) tokens := by
  simp only [assignReader, readAssign, Context.front_eq, htarget, hop]
  exact ⟨rfl, rfl⟩

theorem assignReader_of_value {op : Token} {outcome : Except SyntaxError Expr}
    (htarget : names target.literal = some binding) (hop : compound? op.kind = some compound)
    (hread : (Expr.reader names binding.kind stop rest).Gives outcome left) :
    (assignReader names target stop (op :: rest)).Gives
      (outcome.map (.assign target.position target.literal binding.symbol compound)) left := by
  obtain ⟨rfl, rfl⟩ := hread
  simp only [assignReader, readAssign, Context.front_eq, Token.frontOf_cons, htarget, hop]
  exact ⟨rfl, rfl⟩

theorem foresees_assign (htarget : names target.literal = some binding) :
    (assignReader names target).Foresees stop tokens := by
  cases hop : compound? (Token.frontOf stop tokens).kind with
  | none =>
    refine .fail (.expected .assignmentOperator (Token.frontOf stop tokens)) ⟨rfl, rfl⟩ ?_
    intro stop' tokens' hnext
    rw [← hnext] at hop ⊢
    exact assignReader_of_none htarget hop
  | some compound =>
    cases tokens with
    | nil => cases hop
    | cons op rest =>
      rw [Token.frontOf_cons] at hop
      obtain ⟨taken, left, outcome, rfl, hanswers⟩ := Expr.foresees names binding.kind stop rest
      have hline : ∀ t ∈ [op], t.kind ≠ .newline := by
        simp only [List.mem_singleton, forall_eq]
        intro hkind
        rw [hkind] at hop
        cases hop
      exact ⟨[op] ++ taken, left, _, rfl,
        hanswers.map _ hline fun _ _ _ hgives => assignReader_of_value htarget hop hgives⟩

/-- An assignment fails at its target, or is seen from its operator and its value. -/
theorem leafForesees_assign (hfirst : first.kind = .identifier) :
    LeafForesees site a first stop tokens := by
  have hread (stop : Position) (tokens : List Token) :
      readUnfinished { site with stop } a first tokens =
        .plain a (assignReader (a.resolve? site.table) first stop tokens) := by
    simp only [readUnfinished, hfirst]
    rfl
  cases htarget : a.resolve? site.table first.literal with
  | none =>
    refine .of_error [] (.undeclared first) (by simp) ⟨first, by simp, rfl⟩ nofun ?_
    intro stop' rest' _
    refine ⟨_, ?_, hread stop' rest'⟩
    simp only [assignReader, readAssign, htarget]
    exact ⟨rfl, rfl⟩
  | some binding => exact .of_reader (foresees_assign htarget) hread

def printReader (names : String → Option Arena.Binding) (position : Position) (newline : Bool) :
    Reader Statement :=
  fun stop tokens => readPrint ⟨names, stop⟩ position newline tokens

theorem printReader_of_ends (h : endsBefore (Token.frontOf stop tokens).kind = true) :
    (printReader names position newline stop tokens).Gives
      (.ok (.print position newline none)) tokens := by
  simp only [printReader, readPrint, Context.front_eq, h, if_true]
  exact ⟨rfl, rfl⟩

section value

variable (hends : endsBefore (Token.frontOf stop tokens).kind = false)

include hends

theorem printReader_of_error {e : SyntaxError}
    (h : Context.kindOf? ⟨names, stop⟩ (Token.frontOf stop tokens) = .error e) :
    (printReader names position newline stop tokens).Gives (.error e) tokens := by
  simp only [printReader, readPrint, Context.front_eq, hends, Bool.false_eq_true, if_false, h]
  exact ⟨rfl, rfl⟩

theorem printReader_of_none
    (h : Context.kindOf? ⟨names, stop⟩ (Token.frontOf stop tokens) = .ok none) :
    (printReader names position newline stop tokens).Gives
      (.error (.expected .expression (Token.frontOf stop tokens))) tokens := by
  simp only [printReader, readPrint, Context.front_eq, hends, Bool.false_eq_true, if_false, h]
  exact ⟨rfl, rfl⟩

theorem printReader_of_value {kind : Kind} {outcome : Except SyntaxError Expr}
    (h : Context.kindOf? ⟨names, stop⟩ (Token.frontOf stop tokens) = .ok (some kind))
    (hread : (Expr.reader names kind stop tokens).Gives outcome left) :
    (printReader names position newline stop tokens).Gives
      (outcome.map fun e => .print position newline (some e)) left := by
  obtain ⟨rfl, rfl⟩ := hread
  simp only [printReader, readPrint, Context.front_eq, hends, Bool.false_eq_true, if_false, h]
  exact ⟨rfl, rfl⟩

end value

theorem foresees_print (names : String → Option Arena.Binding) (position : Position)
    (newline : Bool) (stop : Position) (tokens : List Token) :
    (printReader names position newline).Foresees stop tokens := by
  cases hends : endsBefore (Token.frontOf stop tokens).kind with
  | true =>
    refine .stay (.ok (.print position newline none)) (by simp) ?_
    intro stop' tokens' hnext
    rw [← hnext] at hends
    exact printReader_of_ends hends
  | false =>
    cases hkind : Context.kindOf? ⟨names, stop⟩ (Token.frontOf stop tokens) with
    | error e =>
      refine .fail e (Context.minor_of_kindOf? hkind) ?_
      intro stop' tokens' hnext
      rw [← hnext] at hends hkind
      exact printReader_of_error hends hkind
    | ok found =>
      cases found with
      | none =>
        refine .fail (.expected .expression (Token.frontOf stop tokens)) ⟨rfl, rfl⟩ ?_
        intro stop' tokens' hnext
        rw [← hnext] at hends hkind ⊢
        exact printReader_of_none hends hkind
      | some kind =>
        obtain ⟨taken, left, outcome, rfl, hanswers⟩ := Expr.foresees names kind stop tokens
        have hline : ∀ t ∈ ([] : List Token), t.kind ≠ .newline := by simp
        refine ⟨taken, left, _, rfl,
          hanswers.map (fun e => .print position newline (some e)) hline ?_⟩
        intro stop' rest' hnext hgives
        rw [← Token.frontOf_append hnext] at hends hkind
        exact printReader_of_value hends hkind hgives

end plain

/-- Whatever the first token is, a statement is seen from what it takes and one token
more. -/
theorem leafForesees (site : Site) (a : Arena) (first : Token) (stop : Position)
    (tokens : List Token) : LeafForesees site a first stop tokens := by
  by_cases hvar : first.kind = .keyword .var
  · exact leafForesees_declare hvar
  by_cases hname : first.kind = .identifier
  · exact leafForesees_assign hname
  by_cases hprint : first.kind = .keyword .print
  · refine .of_reader (foresees_print (a.resolve? site.table) first.position false stop tokens) ?_
    intro stop' tokens'
    simp only [readUnfinished, hprint]
    rfl
  by_cases hprintln : first.kind = .keyword .println
  · refine .of_reader (foresees_print (a.resolve? site.table) first.position true stop tokens) ?_
    intro stop' tokens'
    simp only [readUnfinished, hprintln]
    rfl
  refine .of_error [] (.unexpected first) (by simp) ⟨first, by simp, rfl⟩ nofun ?_
  intro stop' rest' _
  refine ⟨.stay rest' (.error (.unexpected first)), ⟨rfl, rfl⟩, ?_⟩
  simp only [readUnfinished, List.nil_append]

/-! ## The end of the statement -/

section finish

variable {before left : List Token} {r : StatementReading before} {e : SyntaxError}
variable {statement : Statement} {found : Token}

theorem finish_of_error (h : r.Gives (.error e) left) : r.finish.Gives (.error e) left := by
  obtain ⟨⟨outcome, rest, suffix⟩, arena, errors, log⟩ := r
  obtain ⟨hout, hrest⟩ := h
  cases hout
  exact ⟨rfl, hrest⟩

theorem finish_of_ends {rest : List Token} (h : r.Gives (.ok statement) rest)
    (ends : Ends rest left) : r.finish.Gives (.ok statement) left := by
  obtain ⟨hout, hrest⟩ := h
  rw [← hrest] at ends
  obtain ⟨hout', hrest'⟩ := StatementReading.finish_eq_ok_iff.mpr ⟨hout, ends⟩
  exact ⟨hout', hrest'⟩

theorem finish_of_goes (h : r.Gives (.ok statement) (found :: left))
    (goes : endsBefore found.kind = false) :
    r.finish.Gives (.error (.expected .endOfStatement found)) (found :: left) := by
  obtain ⟨⟨outcome, rest, suffix⟩, arena, errors, log⟩ := r
  obtain ⟨hout, hrest⟩ := h
  cases hout
  cases hrest
  simp only [StatementReading.finish]
  split <;> simp_all [endsBefore]
  exact ⟨rfl, rfl⟩

end finish

/-- In front of the end of input, of a brace and of a comment a statement ends without
taking anything. -/
theorem ends_before {next : Token} (hnext : Token.frontOf stop tokens = next)
    (h : next.kind = .endOfInput ∨ next.kind = .rightBrace ∨ next.kind = .hash) :
    Ends tokens tokens := by
  cases tokens with
  | nil => exact .input
  | cons token rest =>
    rw [← hnext] at h
    exact .before h

/-- How the statement goes that `first` begins: it takes the tokens, gives the outcome
and leaves the arena `b`. The outcome hangs on no other token than these and, if it is
there, `look`. -/
structure LeafTurn (site : Site) (a : Arena) (first : Token) (taken : List Token)
    (look : Option Token) (outcome : Except SyntaxError Statement) (b : Arena) : Prop where
  gives : ∀ (stop : Position) (rest : List Token),
    (∀ next ∈ look, Token.frontOf stop rest = next) →
      (Statement.read { site with stop } a first (taken ++ rest)).Gives outcome rest ∧
        (Statement.read { site with stop } a first (taken ++ rest)).arena = b
  oneLine : Token.OneLine (taken ++ look.toList)
  failed : ∀ ⦃e⦄, outcome = .error e → look.isSome ∧ e.At (first :: (taken ++ look.toList))
  aborts : ∀ ⦃e⦄, outcome = .error e → e.abortsBlock = true → first.Abandons taken ∧ b = a
  ended : ∀ ⦃statement next⦄, outcome = .ok statement → next ∈ look →
    next.kind = .endOfInput ∨ next.kind = .rightBrace ∨ next.kind = .hash
  lined : look = none → ∃ last, taken.getLast? = some last ∧ last.kind = .newline

section turn

variable {taken : List Token} {next : Token} {e : SyntaxError} {statement : Statement}
variable (hleaf : first.StartsLeaf)

include hleaf

theorem read_gives {outcome : Except SyntaxError Statement} {left : List Token}
    (h : (readUnfinished site a first tokens).finish.Gives outcome left)
    (harena : (readUnfinished site a first tokens).arena = b) :
    (Statement.read site a first tokens).Gives outcome left ∧
      (Statement.read site a first tokens).arena = b := by
  rw [read_eq_readUnfinished hleaf]
  exact ⟨⟨h.outcome_eq, h.rest_eq⟩, StatementReading.finish_arena.trans harena⟩

theorem LeafAnswers.turn_of_error (h : LeafAnswers site a first taken next (.error e) b) :
    LeafTurn site a first taken (some next) (.error e) b where
  gives stop rest hnext := by
    obtain ⟨hgives, harena⟩ := h.gives stop rest (hnext next rfl)
    exact read_gives hleaf (finish_of_error hgives) harena
  oneLine := Token.oneLine_concat.mpr h.inLine
  failed := by
    rintro _ ⟨⟩
    exact ⟨rfl, h.located rfl⟩
  aborts := h.aborts
  ended := by rintro _ _ ⟨⟩
  lined := nofun

theorem LeafAnswers.turn_of_before (h : LeafAnswers site a first taken next (.ok statement) b)
    (hkind : next.kind = .endOfInput ∨ next.kind = .rightBrace ∨ next.kind = .hash) :
    LeafTurn site a first taken (some next) (.ok statement) b where
  gives stop rest hnext := by
    obtain ⟨hgives, harena⟩ := h.gives stop rest (hnext next rfl)
    exact read_gives hleaf (finish_of_ends hgives (ends_before (hnext next rfl) hkind)) harena
  oneLine := Token.oneLine_concat.mpr h.inLine
  failed := nofun
  aborts := nofun
  ended := by
    rintro _ _ - ⟨⟩
    exact hkind
  lined := nofun

theorem LeafAnswers.turn_of_line (h : LeafAnswers site a first taken next (.ok statement) b)
    (hkind : next.kind = .newline) :
    LeafTurn site a first (taken ++ [next]) none (.ok statement) b where
  gives stop rest _ := by
    obtain ⟨hgives, harena⟩ := h.gives stop (next :: rest) rfl
    rw [List.append_assoc]
    exact read_gives hleaf (finish_of_ends hgives (.line hkind)) harena
  oneLine := by
    rw [Option.toList_none, List.append_nil]
    exact Token.oneLine_concat.mpr h.inLine
  failed := nofun
  aborts := nofun
  ended := by rintro _ _ - ⟨⟩
  lined _ := ⟨next, by simp, hkind⟩

theorem LeafAnswers.turn_of_goes (h : LeafAnswers site a first taken next (.ok statement) b)
    (hkind : endsBefore next.kind = false) :
    LeafTurn site a first taken (some next) (.error (.expected .endOfStatement next)) b where
  gives stop rest hnext := by
    have hfront : Token.frontOf stop rest = next := hnext next rfl
    obtain ⟨hgives, harena⟩ := h.gives stop rest hfront
    have hinput : next.kind ≠ .endOfInput := by
      intro hinput
      rw [hinput] at hkind
      cases hkind
    obtain ⟨later, rfl⟩ := Token.exists_cons_of_frontOf hfront hinput
    exact read_gives hleaf (finish_of_goes hgives hkind) harena
  oneLine := Token.oneLine_concat.mpr h.inLine
  failed := by
    rintro _ ⟨⟩
    exact ⟨rfl, next, by simp, rfl⟩
  aborts := by rintro _ ⟨⟩ ⟨⟩
  ended := by rintro _ _ ⟨⟩
  lined := nofun

/-- Every statement takes one of these turns. -/
theorem exists_leafTurn (site : Site) (a : Arena) (stop : Position) (tokens : List Token) :
    ∃ taken rest look outcome b, tokens = taken ++ rest ∧
      (∀ next ∈ look, Token.frontOf stop rest = next) ∧
        LeafTurn site a first taken look outcome b := by
  obtain ⟨taken, rest, outcome, b, rfl, h⟩ := leafForesees site a first stop tokens
  cases outcome with
  | error e => exact ⟨taken, rest, _, _, b, rfl, by simp, h.turn_of_error hleaf⟩
  | ok statement =>
    generalize hnext : Token.frontOf stop rest = next at h
    by_cases hline : next.kind = .newline
    · obtain ⟨later, rfl⟩ := Token.exists_cons_of_frontOf hnext (by simp [hline])
      exact ⟨taken ++ [next], later, _, _, b, by simp, by simp, h.turn_of_line hleaf hline⟩
    by_cases hbefore : next.kind = .endOfInput ∨ next.kind = .rightBrace ∨ next.kind = .hash
    · exact ⟨taken, rest, _, _, b, rfl, by simp [hnext], h.turn_of_before hleaf hbefore⟩
    · have hgoes : endsBefore next.kind = false := by
        unfold endsBefore
        split <;> simp_all
      exact ⟨taken, rest, _, _, b, rfl, by simp [hnext], h.turn_of_goes hleaf hgoes⟩

end turn

end Statement

end LineScript
