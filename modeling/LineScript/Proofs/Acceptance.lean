import LineScript.Proofs.Reading.Scopes
import LineScript.Proofs.Spelling

/-!
# The accepted language

A reading finds no error exactly if the tokens are derivable in the grammar
(`Site.InScope.clean_iff`). In one direction the rules of a reading without errors are
turned into a derivation, in the other a derivation is followed by the reader. In
both directions the frames of the grammar are those that `Site.InScope` shows.

What follows a body is part of both sides: a nested body is closed by a brace, and
the outermost body goes on to the end of input.
-/

namespace LineScript

/-- The first tokens close a body that is read at the site. The second are left
behind it. -/
inductive Site.Closes (site : Site) : List Token → List Token → Prop where
  | brace {token : Token} {rest : List Token} (hnested : site.nested = true)
      (hkind : token.kind = .rightBrace) : Closes site (token :: rest) rest
  | input (hroot : site.nested = false) : Closes site [] []

theorem Site.Closes.eq_nil {site : Site} {us left : List Token} (h : site.Closes us left)
    (hroot : site.nested = false) : us = [] := by
  cases h with
  | brace hnested => simp [hroot] at hnested
  | input => rfl

/-! ## How derivations begin -/

namespace Grammar

variable {env env' : Frames Kind} {ts us tail : List Token} {token : Token}

theorem Statement.exists_head (h : Statement env ts env') :
    ∃ token us, ts = token :: us ∧ token.StartsStatement := by
  unfold Token.StartsStatement
  cases h with
  | declare hkeyword => exact ⟨_, _, rfl, by simp [hkeyword]⟩
  | declareValue hkeyword => exact ⟨_, _, rfl, by simp [hkeyword]⟩
  | assign hname => exact ⟨_, _, rfl, by simp [hname.1]⟩
  | print hkeyword => exact ⟨_, _, rfl, by obtain h | h := hkeyword <;> simp [h]⟩
  | printValue hkeyword => exact ⟨_, _, rfl, by obtain h | h := hkeyword <;> simp [h]⟩
  | block hopening => exact ⟨_, _, rfl, by simp [hopening]⟩

theorem Body.head_ne_rightBrace (h : Body env (token :: ts)) : token.kind ≠ .rightBrace := by
  generalize htokens : token :: ts = tokens at h
  cases h with
  | empty => cases htokens
  | blank hkind =>
    cases htokens
    obtain h | h := hkind <;> simp [h]
  | statement first =>
    obtain ⟨head, us, rfl, hstarts⟩ := first.exists_head
    cases htokens
    exact hstarts.2.2.2

/-- A statement that ends in front of the rest of a body is part of the body. -/
theorem Body.of_ends {mid next : List Token} (first : Statement env ts env')
    (ends : Ends mid next) (hregular : ∀ token ∈ mid, token.Regular) (hnext : next = us ++ tail)
    (later : Body env' us) : ∃ vs, ts ++ mid = vs ++ tail ∧ Body env vs := by
  cases ends with
  | input =>
    obtain ⟨rfl, rfl⟩ := List.append_eq_nil_iff.mp hnext.symm
    exact ⟨ts ++ [], by simp, .statement first trivial .empty⟩
  | @line newline _ hkind =>
    subst hnext
    exact ⟨ts ++ newline :: us, by simp, .statement first (.inl hkind) (.blank (.inl hkind) later)⟩
  | @before token rest hkind =>
    refine ⟨ts ++ us, by rw [List.append_assoc, hnext], .statement first ?_ later⟩
    cases us with
    | nil => trivial
    | cons head us =>
      cases hnext
      obtain hinput | hbrace | hhash := hkind
      · exact absurd hinput (hregular token List.mem_cons_self).goesOn
      · exact absurd hbrace later.head_ne_rightBrace
      · exact .inr hhash

end Grammar

theorem Statement.exists_compound?_iff {kind : TokenKind} :
    (∃ compound, compound? kind = some compound) ↔ kind = .equals ∨ kind = .plusEquals := by
  unfold compound?
  split <;> simp_all

/-- The word of an output statement says whether the line ends. -/
theorem Statement.exists_newline_iff {kind : TokenKind} :
    (∃ newline : Bool, kind = .keyword (if newline then .println else .print)) ↔
      kind = .keyword .print ∨ kind = .keyword .println := by
  simp [Bool.exists_bool]

/-! ## What is read is derivable -/

section soundness

variable {site : Site} {a b : Arena} {frames : Frames Arena.Binding}
variable {first : Token} {tokens left : List Token} {statement : Statement}

theorem Expr.derivable_of_read {kind : Kind} {e : Expr} (h : site.InScope a frames)
    (hspelled : ∀ token ∈ tokens, token.WellSpelled)
    (hread : (Expr.read (site.context a) kind tokens).outcome = .ok e) :
    ∃ ts, tokens = ts ++ (Expr.read (site.context a) kind tokens).rest ∧
      Grammar.Expr frames.kinds.lookup kind ts := by
  obtain ⟨ts, htokens, -, hderivable⟩ := Expr.read_sound _ kind tokens hread
  rw [h.kinds_eq] at hderivable
  refine ⟨ts, htokens, hderivable ?_⟩
  intro token htoken
  exact hspelled token (htokens ▸ List.mem_append_left _ htoken)

theorem LeafReads.derivable (hread : LeafReads site a first tokens statement left b)
    (h : site.InScope a frames) (hspelled : ∀ token ∈ tokens, token.WellSpelled) :
    ∃ ts mid, first :: tokens = ts ++ mid ∧ Ends mid left ∧
      Grammar.Statement frames.kinds ts (statement.scope frames).kinds := by
  cases hread with
  | @declare name type kind rest _ hfirst hname htype hfree ends =>
    refine ⟨[first, name, type], rest, rfl, ends, ?_⟩
    rw [Statement.scope, Frames.kinds_bind]
    exact .declare hfirst hname htype (h.getLocal_eq_none_iff.mp hfree)
  | @declareValue name type equals kind rest _ e hfirst hname htype hfree hequals hvalue ends =>
    obtain ⟨ts, hrest, value⟩ := Expr.derivable_of_read h
      (fun token htoken => hspelled token (by simp [htoken])) hvalue
    refine ⟨first :: name :: type :: equals :: ts, _, ?_, ends, ?_⟩
    · simp only [List.cons_append, ← hrest]
    · rw [Statement.scope, Frames.kinds_bind]
      exact .declareValue hfirst hname htype (h.getLocal_eq_none_iff.mp hfree) hequals value
  | @assign op compound binding rest _ e hfirst htarget hop hvalue ends =>
    obtain ⟨ts, hrest, value⟩ := Expr.derivable_of_read h
      (fun token htoken => hspelled token (List.mem_cons_of_mem op htoken)) hvalue
    have hname : Grammar.Variable frames.kinds.lookup binding.kind first := by
      refine ⟨hfirst, ?_⟩
      rw [← h.kinds_eq]
      exact congrArg (Option.map Arena.Binding.kind) htarget
    refine ⟨first :: op :: ts, _, ?_, ends, .assign hname ?_ value⟩
    · simp only [List.cons_append, ← hrest]
    · exact Statement.exists_compound?_iff.mp ⟨compound, hop⟩
  | @print newline _ _ hfirst ends =>
    exact ⟨[first], tokens, rfl, ends, .print (Statement.exists_newline_iff.mp ⟨newline, hfirst⟩)⟩
  | @printValue newline kind _ _ e hfirst hvalue ends =>
    obtain ⟨ts, hrest, value⟩ := Expr.derivable_of_read h hspelled hvalue
    refine ⟨first :: ts, _, ?_, ends, .printValue ?_ value⟩
    · rw [List.cons_append, ← hrest]
    · exact Statement.exists_newline_iff.mp ⟨newline, hfirst⟩

/-- A body that is read without errors is derivable, and is closed as it should be. -/
theorem BodyReads.derivable {body : List Statement} {errors : List SyntaxError}
    (hread : BodyReads site a tokens body left b errors) (herrors : errors = [])
    (h : site.InScope a frames) (hregular : ∀ token ∈ tokens, token.Regular) :
    ∃ ts us, tokens = ts ++ us ∧ site.Closes us left ∧ Grammar.Body frames.kinds ts := by
  induction hread generalizing frames with
  | @ended site =>
    refine ⟨[], [], rfl, .input ?_, .empty⟩
    cases hnested : site.nested with
    | false => rfl
    | true => simp [Site.endErrors, hnested] at herrors
  | stopped hkind => exact absurd hkind (hregular _ List.mem_cons_self).goesOn
  | @blank _ _ _ token _ _ _ _ hkind _ ih =>
    obtain ⟨ts, us, rfl, hcloses, hbody⟩ :=
      ih herrors h fun t ht => hregular t (List.mem_cons_of_mem token ht)
    exact ⟨token :: ts, us, rfl, hcloses, .blank hkind hbody⟩
  | closed hkind hnested => exact ⟨[], _, rfl, .brace hnested hkind, .empty⟩
  | stray => cases herrors
  | @leaf site a _ token rest _ _ _ _ hleaf hout _ ih =>
    obtain ⟨t, ht⟩ := h.exists_table
    have hstatement := (Statement.read_leaf_iff hleaf ht).mp ⟨hout, rfl, rfl⟩
    have hrest : ∀ t ∈ rest, t.Regular := fun t ht => hregular t (List.mem_cons_of_mem token ht)
    obtain ⟨ts, mid, htokens, ends, hfirst⟩ :=
      hstatement.derivable h fun t ht => (hrest t ht).spelled
    obtain ⟨us, tail, hleft, hcloses, hbody⟩ := ih herrors (h.leaf hstatement)
      fun t ht => hrest t ((Statement.read site a token rest).suffix.subset ht)
    obtain ⟨vs, hvs, hwhole⟩ := Grammar.Body.of_ends hfirst ends
      (fun t ht => hregular t (htokens ▸ List.mem_append_right ts ht)) hleft hbody
    exact ⟨vs, tail, htokens.trans hvs, hcloses, hwhole⟩
  | leafFailed => cases herrors
  | leafAborted => cases herrors
  | @block site a _ _ token rest closed next _ _ _ _ _ hkind inner ends _ ihInner ihOuter =>
    obtain ⟨hinside, herrors⟩ := List.append_eq_nil_iff.mp herrors
    obtain ⟨ts, us, rfl, hcloses, hinner⟩ := ihInner hinside h.inner
      fun t ht => hregular t (List.mem_cons_of_mem token ht)
    cases hcloses with
    | input hroot => simp [Site.nested, Site.inner] at hroot
    | @brace brace _ _ hbrace =>
      have hclosed : ∀ t ∈ closed, t.Regular := fun t ht => hregular t (by simp [ht])
      have hnext : ∀ t ∈ next, t.Regular := by
        intro t ht
        cases ends with
        | input => exact hclosed t ht
        | line => exact hclosed t (List.mem_cons_of_mem _ ht)
        | before => exact hclosed t ht
      obtain ⟨us, tail, hleft, hcloses, hbody⟩ := ihOuter herrors (h.behind inner) hnext
      obtain ⟨vs, hvs, hwhole⟩ := Grammar.Body.of_ends (.block hkind hinner hbrace) ends hclosed
        hleft hbody
      exact ⟨vs, tail, by rw [← hvs]; simp, hcloses, hwhole⟩
  | blockFailed => simp at herrors

end soundness

/-! ## What is derivable is read -/

namespace Site

variable {site : Site} {a b : Arena} {frames : Frames Arena.Binding}
variable {first : Token} {tokens next left : List Token}

/-- The body is read without errors, and these tokens are left. -/
def Clean (site : Site) (a : Arena) (tokens left : List Token) : Prop :=
  (readBody site a tokens).errors = [] ∧ (readBody site a tokens).rest = left

/-- The statement is read without errors. Behind it tokens are left, and the frames
are in scope. -/
def Accepts (site : Site) (a : Arena) (first : Token) (tokens left : List Token)
    (frames : Frames Arena.Binding) : Prop :=
  first.StartsStatement ∧
    (∃ statement, (Statement.read site a first tokens).outcome = .ok statement) ∧
    (Statement.read site a first tokens).rest = left ∧
    (Statement.read site a first tokens).errors = [] ∧
    site.InScope (Statement.read site a first tokens).arena frames

theorem clean_of_closes (h : site.Closes tokens left) : site.Clean a tokens left := by
  unfold Clean
  cases h with
  | brace hnested hkind =>
    rw [readBody_of_nested hkind hnested]
    exact ⟨rfl, rfl⟩
  | input hroot =>
    rw [readBody]
    simp [BodyReading.done, endErrors, hroot]

theorem clean_blank_iff (h : first.kind = .newline ∨ first.kind = .hash) :
    site.Clean a (first :: tokens) left ↔ site.Clean a tokens left := by
  unfold Clean
  rw [readBody_of_blank h]
  rfl

theorem Accepts.clean (h : site.Accepts a first tokens next frames)
    (later : ∀ b, site.InScope b frames → site.Clean b next left) :
    site.Clean a (first :: tokens) left := by
  obtain ⟨hstarts, ⟨statement, hout⟩, rfl, herrors, hscope⟩ := h
  obtain ⟨hclean, hleft⟩ := later _ hscope
  unfold Clean
  rw [readBody_of_read_ok hstarts rfl hout]
  exact ⟨by simp only [BodyReading.after, herrors, hclean, List.append_nil], hleft⟩

theorem InScope.accepts_leaf {statement : Statement} (h : site.InScope a frames)
    (hread : LeafReads site a first tokens statement left b) :
    site.Accepts a first tokens left (statement.scope frames) := by
  obtain ⟨t, ht⟩ := h.exists_table
  have hleaf := Statement.startsLeaf_of_leafReads hread
  obtain ⟨hout, hrest, harena⟩ := (Statement.read_leaf_iff hleaf ht).mpr hread
  refine ⟨⟨hleaf.1, hleaf.2.1, hleaf.2.2.1, hleaf.2.2.2.2⟩, ⟨statement, hout⟩, hrest,
    Statement.read_errors_of_startsLeaf site a tokens hleaf, ?_⟩
  rw [harena]
  exact h.leaf hread

/-- A block is accepted if its body is read without errors and it may end behind it. -/
theorem InScope.accepts_block {closed : List Token} (h : site.InScope a frames)
    (hkind : first.kind = .leftBrace)
    (hbody : (site.inner (a.openTable (some site.table)).1).Clean
      (a.openTable (some site.table)).2 tokens closed) (ends : Ends closed next) :
    site.Accepts a first tokens next frames := by
  obtain ⟨hclean, rfl⟩ := hbody
  obtain ⟨harena, herrors, ⟨hends, hout⟩ | ⟨found, rest, hrest, hgoes, -, -⟩⟩ :=
    Statement.read_of_leftBrace site a tokens hkind
  · refine ⟨by simp [Token.StartsStatement, hkind], ⟨_, hout⟩, hends.unique ends,
      herrors.trans hclean, ?_⟩
    rw [harena]
    exact h.behind (bodyReads_readBody _ _ tokens)
  · rw [hrest] at ends
    cases ends with
    | line hnewline => simp [Statement.endsBefore, hnewline] at hgoes
    | before hbefore =>
      obtain h | h | h := hbefore <;> simp [Statement.endsBefore, h] at hgoes

end Site

section completeness

variable {site : Site} {a : Arena} {frames : Frames Arena.Binding}
variable {ts us mid next tail left : List Token} {kind : Kind}

/-- No expression goes on where a statement may end. -/
theorem Ends.stops_expression (ends : Ends mid next) : NoSum mid ∧ NoProduct mid := by
  cases ends with
  | input => exact ⟨trivial, trivial⟩
  | line h => exact ⟨by simp [NoSum, h, Operator.sum?], by simp [NoProduct, h, Operator.product?]⟩
  | before h =>
    obtain h | h | h := h <;>
      exact ⟨by simp [NoSum, h, Operator.sum?], by simp [NoProduct, h, Operator.product?]⟩

/-- Between a statement and the rest of its body the statement may end. -/
theorem Grammar.Boundary.exists_ends (h : Boundary us) (hcloses : site.Closes tail left) :
    ∃ next, Ends (us ++ tail) next ∧
      ∀ b, site.Clean b (us ++ tail) left → site.Clean b next left := by
  cases us with
  | nil =>
    cases hcloses with
    | brace _ hkind => exact ⟨_, .before (.inr (.inl hkind)), fun _ hclean => hclean⟩
    | input => exact ⟨_, .input, fun _ hclean => hclean⟩
  | cons token us =>
    obtain hline | hhash := h
    · exact ⟨us ++ tail, .line hline, fun b => (Site.clean_blank_iff (.inl hline)).mp⟩
    · exact ⟨_, .before (.inr (.inr hhash)), fun _ hclean => hclean⟩

theorem Site.InScope.takes_expr (h : site.InScope a frames)
    (value : Grammar.Expr frames.kinds.lookup kind ts)
    (hspelled : ∀ token ∈ ts, token.WellSpelled) (ends : Ends mid next) :
    ∃ e, (Expr.read (site.context a) kind (ts ++ mid)).outcome = .ok e ∧
      Ends (Expr.read (site.context a) kind (ts ++ mid)).rest next := by
  rw [← h.kinds_eq] at value
  obtain ⟨⟨e, he⟩, hrest⟩ :=
    Expr.takes_of_expr value hspelled ends.stops_expression.1 ends.stops_expression.2
  refine ⟨e, he, ?_⟩
  rw [hrest]
  exact ends

mutual

/-- A derivable statement is read, where its frames are in scope. -/
theorem Site.InScope.accepts_of_statement : ∀ {env env' : Frames Kind} {ts : List Token},
    Grammar.Statement env ts env' → ∀ {site : Site} {a : Arena} {frames : Frames Arena.Binding}
    {mid next : List Token}, site.InScope a frames → frames.kinds = env →
    (∀ token ∈ ts, token.WellSpelled) → Ends mid next →
    ∃ first us frames', ts ++ mid = first :: us ∧ frames'.kinds = env' ∧
      site.Accepts a first us next frames'
  | _, _, _, .declare hkeyword hname htype hfree, _, _, _, _, _, h, rfl, _, ends =>
    ⟨_, _, _, rfl, Frames.kinds_bind,
      h.accepts_leaf (.declare hkeyword hname htype (h.getLocal_eq_none_iff.mpr hfree) ends)⟩
  | _, _, _, .declareValue hkeyword hname htype hfree hequals value, _, _, _, _, _, h, rfl,
      hspelled, ends => by
    obtain ⟨e, hvalue, hends⟩ := h.takes_expr value (by grind) ends
    exact ⟨_, _, _, rfl, Frames.kinds_bind, h.accepts_leaf (.declareValue hkeyword hname htype
      (h.getLocal_eq_none_iff.mpr hfree) hequals hvalue hends)⟩
  | _, _, _, .assign hname hop value, site, a, _, _, _, h, rfl, hspelled, ends => by
    rw [Grammar.Variable, ← h.kinds_eq] at hname
    obtain ⟨hkind, hname⟩ := hname
    obtain ⟨binding, htarget, rfl⟩ := Option.map_eq_some_iff.mp hname
    obtain ⟨e, hvalue, hends⟩ := h.takes_expr value (by grind) ends
    obtain ⟨compound, hcompound⟩ := Statement.exists_compound?_iff.mpr hop
    exact ⟨_, _, _, rfl, rfl, h.accepts_leaf (.assign hkind htarget hcompound hvalue hends)⟩
  | _, _, _, .print hkeyword, _, _, _, _, _, h, rfl, _, ends => by
    obtain ⟨newline, hnewline⟩ := Statement.exists_newline_iff.mpr hkeyword
    exact ⟨_, _, _, rfl, rfl, h.accepts_leaf (.print hnewline ends)⟩
  | _, _, _, .printValue hkeyword value, _, _, _, _, _, h, rfl, hspelled, ends => by
    obtain ⟨newline, hnewline⟩ := Statement.exists_newline_iff.mpr hkeyword
    obtain ⟨e, hvalue, hends⟩ := h.takes_expr value (by grind) ends
    exact ⟨_, _, _, rfl, rfl, h.accepts_leaf (.printValue hnewline hvalue hends)⟩
  | _, _, _, .block hopening body hclosing, site, a, frames, mid, _, h, hkinds, hspelled, ends => by
    have hnested : (site.inner (a.openTable (some site.table)).1).nested = true := by
      simp [Site.nested, Site.inner]
    have hclean := Site.InScope.clean_of_body body h.inner (congrArg ([] :: ·) hkinds) (by grind)
      (show Site.Closes _ (_ :: mid) mid from .brace hnested hclosing)
    exact ⟨_, _, frames, by simp, hkinds, h.accepts_block hopening hclean ends⟩

/-- A derivable body is read without errors. -/
theorem Site.InScope.clean_of_body : ∀ {env : Frames Kind} {ts : List Token},
    Grammar.Body env ts → ∀ {site : Site} {a : Arena} {frames : Frames Arena.Binding}
    {tail left : List Token}, site.InScope a frames → frames.kinds = env →
    (∀ token ∈ ts, token.WellSpelled) → site.Closes tail left → site.Clean a (ts ++ tail) left
  | _, _, .empty, _, _, _, _, _, _, _, _, hcloses => Site.clean_of_closes hcloses
  | _, _, .blank hkind rest, _, _, _, _, _, h, hkinds, hspelled, hcloses =>
    (Site.clean_blank_iff hkind).mpr (Site.InScope.clean_of_body rest h hkinds
      (fun t ht => hspelled t (List.mem_cons_of_mem _ ht)) hcloses)
  | _, _, .statement first hboundary rest, _, _, _, _, _, h, hkinds, hspelled, hcloses => by
    obtain ⟨next, ends, hnext⟩ := hboundary.exists_ends hcloses
    obtain ⟨token, us, frames', htokens, hkinds', haccepts⟩ :=
      Site.InScope.accepts_of_statement first h hkinds
        (fun t ht => hspelled t (List.mem_append_left _ ht)) ends
    rw [List.append_assoc, htokens]
    refine haccepts.clean fun b hb => hnext b ?_
    exact Site.InScope.clean_of_body rest hb hkinds'
      (fun t ht => hspelled t (List.mem_append_right _ ht)) hcloses

end

end completeness

/-- A body is read without errors exactly if it is derivable and closed. -/
theorem Site.InScope.clean_iff {site : Site} {a : Arena} {frames : Frames Arena.Binding}
    {tokens left : List Token} (h : site.InScope a frames)
    (hregular : ∀ token ∈ tokens, token.Regular) :
    site.Clean a tokens left ↔
      ∃ ts us, tokens = ts ++ us ∧ site.Closes us left ∧ Grammar.Body frames.kinds ts := by
  constructor
  · rintro ⟨herrors, rfl⟩
    exact (bodyReads_readBody site a tokens).derivable herrors h hregular
  · rintro ⟨ts, us, rfl, hcloses, hbody⟩
    exact h.clean_of_body hbody rfl
      (fun t ht => (hregular t (List.mem_append_left us ht)).spelled) hcloses

/-! ## Programs -/

/-- The tokens are those of the lines, counted from the given line on: of each line
what is scanned in it and then its end, and behind the last line the end of input.
Where the input ends is left open. -/
inductive Token.Stream : Nat → List String → List Token → Prop where
  | nil {line : Nat} (stop : Position) : Stream line [] [Token.endAt stop]
  | cons {line : Nat} {text : String} {lines : List String} {ts us : List Token}
      (hscan : Token.ofLine line text = .ok ts) (rest : Stream (line + 1) lines us) :
      Stream line (text :: lines)
        (ts ++ { kind := .newline, literal := "\n", position := Cursor.lineEnd line text } :: us)

namespace Cursor

/-- The tokens of numbered lines. -/
theorem stream_iff {line : Nat} {lines : List String} {tokens : List Token} :
    Token.Stream line lines tokens ↔
      ((lines.zipIdx line).filterMap fun (text, line) => lineError? line text) = [] ∧
        ∃ stop, tokens =
          ((lines.zipIdx line).flatMap fun (text, line) => lineTokens line text) ++
            [Token.endAt stop] := by
  induction lines generalizing line tokens with
  | nil =>
    constructor
    · rintro ⟨stop⟩
      exact ⟨rfl, stop, rfl⟩
    · rintro ⟨-, stop, rfl⟩
      exact .nil stop
  | cons text lines ih =>
    rw [List.zipIdx_cons]
    constructor
    · rintro (_ | @⟨_, _, _, ts, us, hscan, rest⟩)
      obtain ⟨herrors, stop, rfl⟩ := ih.mp rest
      refine ⟨by simpa [lineError?, hscan] using herrors, stop, ?_⟩
      simp [lineTokens, hscan]
    · rintro ⟨herrors, stop, rfl⟩
      cases hscan : Token.ofLine line text with
      | error e => simp [lineError?, hscan] at herrors
      | ok ts =>
        have hrest : ((lines.zipIdx (line + 1)).filterMap
            fun (text, line) => lineError? line text) = [] := by
          simpa [lineError?, hscan] using herrors
        have hstream := Token.Stream.cons hscan (ih.mpr ⟨hrest, stop, rfl⟩)
        simpa [lineTokens, hscan] using hstream

end Cursor

theorem Grammar.source_append_endAt_iff {tokens : List Token} {stop : Position} :
    Source (tokens ++ [Token.endAt stop]) ↔ Body [[]] tokens := by
  constructor
  · rintro ⟨body, last, htokens, -, hbody⟩
    rwa [(List.append_inj' htokens rfl).1]
  · exact fun hbody => ⟨tokens, _, rfl, rfl, hbody⟩

namespace Program

theorem ofTokens_errors_eq_nil_iff {cursor : Cursor}
    (hregular : ∀ token ∈ cursor.ahead, token.Regular) :
    (ofTokens cursor).2.1 = [] ↔ Grammar.Body [[]] cursor.ahead := by
  have hscope := Site.InScope.outermost cursor.closing.position
  have hroot : (Site.outermost cursor.closing.position).nested = false := rfl
  constructor
  · intro herrors
    obtain ⟨ts, us, htokens, hcloses, hbody⟩ := (hscope.clean_iff hregular).mp ⟨herrors, rfl⟩
    rwa [htokens, hcloses.eq_nil hroot, List.append_nil]
  · intro hbody
    exact ((hscope.clean_iff hregular).mpr
      ⟨_, [], (List.append_nil _).symm, .input hroot, hbody⟩).1

/-- Lines are read without errors exactly if each of them can be scanned and their
tokens are a program of the grammar. -/
theorem errors_parse_eq_nil_iff (lines : List String) :
    (parse lines).errors = [] ↔
      ∃ tokens, Token.Stream 1 lines tokens ∧ Grammar.Source tokens := by
  have haccepts := ofTokens_errors_eq_nil_iff (Cursor.regular_ofLines lines)
  have hstream := @Cursor.stream_iff 1 lines
  unfold parse
  simp only
  split
  case isTrue hlexical =>
    rw [List.isEmpty_iff] at hlexical
    rw [List.map_eq_nil_iff, haccepts]
    constructor
    · intro hbody
      exact ⟨_, hstream.mpr ⟨hlexical, .start, rfl⟩, Grammar.source_append_endAt_iff.mpr hbody⟩
    · rintro ⟨tokens, htokens, hsource⟩
      obtain ⟨-, stop, rfl⟩ := hstream.mp htokens
      exact Grammar.source_append_endAt_iff.mp hsource
  case isFalse hlexical =>
    rw [List.isEmpty_iff] at hlexical
    rw [List.map_eq_nil_iff]
    constructor
    · exact fun hempty => absurd hempty hlexical
    · rintro ⟨tokens, htokens, -⟩
      exact absurd (hstream.mp htokens).1 hlexical

end Program

end LineScript
