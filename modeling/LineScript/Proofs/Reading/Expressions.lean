import LineScript.Expr.Reader
import LineScript.Proofs.Grammar
import LineScript.Token.Pattern

/-!
# What the readers of expressions accept

A reader of expressions takes exactly the expressions of the grammar. If it
succeeds, the tokens that it took are derivable and every variable in the tree
leads to the symbol that its name has in the context. Conversely a derivable list
of tokens is taken whole, provided that nothing behind it could prolong it.
-/

namespace LineScript

/-! ## References -/

mutual

/-- The uses of variables in an expression, from the left. -/
def NumExpr.references : NumExpr → List Reference
  | .single term => term.references
  | .chain term _ rest => term.references ++ rest.references

def Term.references : Term → List Reference
  | .single factor => factor.references
  | .chain factor _ rest => factor.references ++ rest.references

def Factor.references : Factor → List Reference
  | .literal _ => []
  | .paren inner => inner.references
  | .negate inner => inner.references
  | .reference ref => [ref]

end

def StringOperand.references : StringOperand → List Reference
  | .literal _ => []
  | .reference ref => [ref]

def StringExpr.references : StringExpr → List Reference
  | .single operand => operand.references
  | .chain operand rest => operand.references ++ rest.references

def Expr.references : Expr → List Reference
  | .number e => e.references
  | .string e => e.references

namespace Context

/-- The kinds of the names in scope. -/
def kinds (ctx : Context) (name : String) : Option Kind :=
  (ctx.resolve? name).map Arena.Binding.kind

/-- Each of the variables has the kind and is the one that its name stands for. -/
def Resolves (ctx : Context) (kind : Kind) (refs : List Reference) : Prop :=
  ∀ ref ∈ refs, ctx.resolve? ref.name = some { symbol := ref.symbol, kind }

variable {ctx : Context} {kind : Kind} {token : Token} {ref : Reference}

theorem Resolves.nil : ctx.Resolves kind [] := by
  intro ref h
  cases h

theorem Resolves.append {left right : List Reference} (hl : ctx.Resolves kind left)
    (hr : ctx.Resolves kind right) : ctx.Resolves kind (left ++ right) := by
  intro ref h
  exact (List.mem_append.mp h).elim (hl ref) (hr ref)

/-- A variable is read exactly if its name is in scope with the wanted kind. -/
theorem reference_eq_ok (h : ctx.reference kind token = .ok ref) :
    ctx.kinds token.literal = some kind ∧ ctx.Resolves kind [ref] := by
  unfold reference at h
  split at h
  case h_1 => cases h
  case h_2 binding hb =>
    split at h
    case isFalse => cases h
    case isTrue hkind =>
      cases h
      subst hkind
      exact ⟨by simp [kinds, hb], by simp [Resolves, hb]⟩

theorem exists_reference_of_kinds (h : ctx.kinds token.literal = some kind) :
    ∃ ref, ctx.reference kind token = .ok ref := by
  obtain ⟨binding, hb, rfl⟩ := Option.map_eq_some_iff.mp h
  simp [reference, hb]

end Context

/-! ## Literals -/

namespace Pattern

variable {text whole : List Char}

theorem complete_integer_iff :
    complete .integer text = true ↔ text ≠ [] ∧ ∀ c ∈ text, c.isDigit = true := by
  simp [complete]

/-- Digits end where the point stands. -/
theorem takeWhile_point (h : ∀ c ∈ whole, c.isDigit = true) (fraction : List Char) :
    (whole ++ '.' :: fraction).takeWhile (· != '.') = whole ∧
      (whole ++ '.' :: fraction).dropWhile (· != '.') = '.' :: fraction := by
  have hpoint : ∀ c ∈ whole, (c != '.') = true := by
    intro c hc
    rw [bne_iff_ne]
    rintro rfl
    exact absurd (h _ hc) (by decide)
  rw [List.takeWhile_append_of_pos hpoint, List.dropWhile_append_of_pos hpoint]
  exact ⟨by simp, rfl⟩

/-- A float has exactly one point, and digits in front of it. -/
theorem complete_float_iff : complete .float text = true ↔
    ∃ whole fraction, text = whole ++ '.' :: fraction ∧ complete .integer whole = true ∧
      ∀ c ∈ fraction, c.isDigit = true := by
  constructor
  · intro h
    have htext := List.takeWhile_append_dropWhile (p := (· != '.')) (l := text)
    simp only [complete] at h
    split at h
    case h_1 => cases h
    case h_2 point fraction hdrop =>
      have hpoint : point = '.' := by
        simpa [hdrop] using List.head?_dropWhile_not (· != '.') text
      rw [hdrop, hpoint] at htext
      simp only [Bool.and_eq_true, List.all_eq_true] at h
      exact ⟨_, fraction, htext.symm, by simpa [complete] using h.1, h.2⟩
  · rintro ⟨whole, fraction, rfl, hwhole, hfraction⟩
    rw [complete_integer_iff] at hwhole
    obtain ⟨htake, hdrop⟩ := takeWhile_point hwhole.2 fraction
    simp only [complete, hdrop, htake, Bool.and_eq_true, List.all_eq_true]
    exact ⟨⟨by simpa using hwhole.1, hwhole.2⟩, hfraction⟩

end Pattern

/-- Literals of numbers have the spelling that their kind asks for. -/
def Token.WellSpelled (token : Token) : Prop :=
  (token.kind = .integer → Pattern.integer.complete token.literal.toList = true) ∧
    (token.kind = .float → Pattern.float.complete token.literal.toList = true)

namespace Number

theorem ofInt?_isSome_iff {n : Int} :
    (ofInt? n).isSome ↔ -(Grammar.largest + 1 : Int) ≤ n ∧ n ≤ Grammar.largest := by
  have hmin : Int64.minValue.toInt = -(Grammar.largest + 1 : Int) := by decide
  have hmax : Int64.maxValue.toInt = (Grammar.largest : Int) := by decide
  unfold ofInt?
  rw [hmin, hmax]
  split <;> simp_all

theorem ofInt?_eq_some {i : Int} {n : Number} (h : ofInt? i = some n) :
    ∃ m : Int64, n = .integer m ∧ m.toInt = i := by
  unfold ofInt? at h
  split at h
  case isTrue hrange =>
    have hmin : Int64.minValue.toInt = -2 ^ 63 := by decide
    have hmax : Int64.maxValue.toInt = 2 ^ 63 - 1 := by decide
    cases h
    exact ⟨Int64.ofInt i, rfl, Int64.toInt_ofInt_of_le (by omega) (by omega)⟩
  case isFalse => cases h

theorem digits?_of_complete {text : List Char} (h : Pattern.integer.complete text = true) :
    ∃ value, digits? text = some value := by
  simp only [Pattern.complete, Bool.and_eq_true, Bool.not_eq_true'] at h
  simp [digits?, h.1, h.2]

/-- A text that does not begin with a sign is read as its digits. -/
theorem ofIntegerText?_of_complete {text : List Char}
    (h : Pattern.integer.complete text = true) :
    ofIntegerText? text = (digits? text).bind fun n => ofInt? n := by
  unfold ofIntegerText?
  split
  case h_1 => simp [Pattern.complete] at h
  case h_2 => simp [Pattern.complete] at h
  case h_3 => rfl

theorem isExponentMark_of_isDigit {c : Char} (h : c.isDigit = true) : isExponentMark c = false := by
  cases hmark : isExponentMark c with
  | false => rfl
  | true =>
    obtain rfl | rfl : c = 'e' ∨ c = 'E' := by simpa [isExponentMark] using hmark
    · cases h
    · cases h

theorem scaled_places (n places : Nat) :
    scaled n (0 - places) = Float.ofScientific n true places := by
  rw [scaled, if_neg (by omega), Int.zero_sub, Int.neg_neg, Int.toNat_natCast]

/-- Digits around a point are read as the number of all digits, moved behind the point. -/
theorem decimal?_of_digits {whole fraction : List Char} (hwhole : ∀ c ∈ whole, c.isDigit = true)
    (hfraction : ∀ c ∈ fraction, c.isDigit = true) :
    decimal? (whole ++ '.' :: fraction) =
      (digits? (whole ++ fraction)).map fun n => Float.ofScientific n true fraction.length := by
  have hmark : ∀ c ∈ whole ++ '.' :: fraction, (!isExponentMark c) = true := by
    refine List.forall_mem_append.mpr ⟨fun c hc => ?_, List.forall_mem_cons.mpr ⟨by decide, ?_⟩⟩
    · rw [isExponentMark_of_isDigit (hwhole c hc), Bool.not_false]
    · intro c hc
      rw [isExponentMark_of_isDigit (hfraction c hc), Bool.not_false]
  have hmantissa : (whole ++ '.' :: fraction).takeWhile (!isExponentMark ·) =
      whole ++ '.' :: fraction := by
    rw [← List.append_nil (whole ++ _), List.takeWhile_append_of_pos hmark, List.takeWhile_nil]
  have hexponent : (whole ++ '.' :: fraction).dropWhile (!isExponentMark ·) = [] := by
    rw [← List.append_nil (whole ++ _), List.dropWhile_append_of_pos hmark, List.dropWhile_nil]
  obtain ⟨htake, hdrop⟩ := Pattern.takeWhile_point hwhole fraction
  simp only [decimal?, hmantissa, hexponent, htake, hdrop, List.drop_succ_cons, List.drop_zero]
  cases digits? (whole ++ fraction) with
  | none => rfl
  | some n => exact congrArg some (scaled_places n fraction.length)

/-- A float that the lexicon knows is no name. -/
theorem unsignedFloat?_of_digits {whole fraction : List Char}
    (hwhole : ∀ c ∈ whole, c.isDigit = true) (hfraction : ∀ c ∈ fraction, c.isDigit = true) :
    unsignedFloat? (whole ++ '.' :: fraction) =
      (digits? (whole ++ fraction)).map fun n => Float.ofScientific n true fraction.length := by
  have hname {name : String} (hname : '.' ∉ name.toList) :
      String.ofList ((whole ++ '.' :: fraction).map Char.toLower) ≠ name := by
    rintro rfl
    rw [String.toList_ofList] at hname
    have hpoint : '.' ∈ whole ++ '.' :: fraction := List.mem_append_right _ List.mem_cons_self
    exact hname (List.mem_map_of_mem (f := Char.toLower) hpoint)
  unfold unsignedFloat?
  split
  case h_1 hinf => exact absurd hinf (hname (by decide))
  case h_2 hinfinity => exact absurd hinfinity (hname (by decide))
  case h_3 hnan => exact absurd hnan (hname (by decide))
  case h_4 => exact decimal?_of_digits hwhole hfraction

theorem unsignedFloat?_of_complete {text : List Char} (h : Pattern.float.complete text = true) :
    ∃ x, unsignedFloat? text = some x := by
  obtain ⟨whole, fraction, rfl, hwhole, hfraction⟩ := Pattern.complete_float_iff.mp h
  rw [Pattern.complete_integer_iff] at hwhole
  have hdigits : Pattern.integer.complete (whole ++ fraction) = true :=
    Pattern.complete_integer_iff.mpr
      ⟨by simp [hwhole.1], List.forall_mem_append.mpr ⟨hwhole.2, hfraction⟩⟩
  obtain ⟨value, hvalue⟩ := digits?_of_complete hdigits
  rw [unsignedFloat?_of_digits hwhole.2 hfraction, hvalue]
  exact ⟨_, rfl⟩

theorem ofFloatText?_of_complete {text : List Char} (h : Pattern.float.complete text = true) :
    ofFloatText? text = (unsignedFloat? text).map .float := by
  obtain ⟨whole, fraction, rfl, hwhole, -⟩ := Pattern.complete_float_iff.mp h
  obtain ⟨hne, hdigits⟩ := Pattern.complete_integer_iff.mp hwhole
  obtain ⟨first, whole, rfl⟩ := List.exists_cons_of_ne_nil hne
  have hfirst := hdigits first List.mem_cons_self
  unfold ofFloatText?
  split
  case h_1 hminus =>
    cases hminus
    cases hfirst
  case h_2 hplus =>
    cases hplus
    cases hfirst
  case h_3 => rfl

end Number

namespace Token

variable {token : Token} {value : Nat} {n : Number}

theorem exists_literal (hkind : token.kind = .integer) (h : token.WellSpelled) :
    ∃ value, Grammar.Literal token value := by
  obtain ⟨value, hvalue⟩ := Number.digits?_of_complete (h.1 hkind)
  exact ⟨value, hkind, hvalue⟩

theorem number_isOk_iff_isSome (hkind : token.kind = .integer) (sign : String) :
    (∃ n, token.number sign = .ok n) ↔
      (Number.ofIntegerText? (sign ++ token.literal).toList).isSome := by
  have hfloat : token.kind ≠ .float := by simp [hkind]
  simp only [number, if_neg hfloat]
  cases Number.ofIntegerText? (sign ++ token.literal).toList <;> simp

/-- A literal without a sign is read exactly if its value is no larger than the
largest integer. -/
theorem number_isOk_iff (hliteral : Grammar.Literal token value) (h : token.WellSpelled) :
    (∃ n, token.number "" = .ok n) ↔ value ≤ Grammar.largest := by
  rw [number_isOk_iff_isSome hliteral.1, String.empty_append,
    Number.ofIntegerText?_of_complete (h.1 hliteral.1), hliteral.2, Option.bind_some,
    Number.ofInt?_isSome_iff]
  omega

/-- With a minus sign there is one literal more. -/
theorem number_minus_isOk_iff (hliteral : Grammar.Literal token value) :
    (∃ n, token.number "-" = .ok n) ↔ value ≤ Grammar.largest + 1 := by
  have htext : ("-" ++ token.literal).toList = '-' :: token.literal.toList := by
    simp [String.toList_append]
  rw [number_isOk_iff_isSome hliteral.1, htext, Number.ofIntegerText?, hliteral.2,
    Option.bind_some, Number.ofInt?_isSome_iff]
  omega

theorem exists_number_of_float (hkind : token.kind = .float) (h : token.WellSpelled) :
    ∃ n, token.number "" = .ok n := by
  obtain ⟨x, hx⟩ := Number.unsignedFloat?_of_complete (h.2 hkind)
  exact ⟨.float x, by
    simp [number, hkind, Number.ofFloatText?_of_complete (h.2 hkind), hx]⟩

theorem exists_number_minus_of_float (hkind : token.kind = .float) (h : token.WellSpelled) :
    ∃ n, token.number "-" = .ok n := by
  obtain ⟨x, hx⟩ := Number.unsignedFloat?_of_complete (h.2 hkind)
  exact ⟨.float (-x), by simp [number, hkind, String.toList_append, Number.ofFloatText?, hx]⟩

end Token

/-! ## Soundness -/

/-- If the reading succeeds, the tree is good and the tokens that were taken are
derivable, as far as their literals are spelled properly. -/
def Reading.Sound {α : Type} {before : List Token} (r : Reading α before) (good : α → Prop)
    (derivable : List Token → Prop) : Prop :=
  ∀ ⦃tree⦄, r.outcome = .ok tree → ∃ taken, before = taken ++ r.rest ∧ good tree ∧
    ((∀ token ∈ taken, token.WellSpelled) → derivable taken)

theorem Reading.Sound.of_error {α : Type} {before : List Token} {r : Reading α before}
    {good : α → Prop} {derivable : List Token → Prop} {e : SyntaxError}
    (h : r.outcome = .error e) : r.Sound good derivable := by
  intro tree htree
  rw [h] at htree
  cases htree

/-- A reading of later tokens is sound from an earlier place, if the tokens in front
of them complete each derivation. -/
theorem Reading.Sound.prepend {α β : Type} {before later : List Token} {r : Reading α later}
    {good : α → Prop} {good' : β → Prop} {derivable derivable' : List Token → Prop}
    (hr : r.Sound good derivable) (front : List Token) (hbefore : before = front ++ later)
    (f : α → β) (hgood : ∀ tree, good tree → good' (f tree))
    (hderive : ∀ taken, (∀ token ∈ front, token.WellSpelled) → derivable taken →
      derivable' (front ++ taken)) (h : later <:+ before) :
    ((r.map f).within h).Sound good' derivable' := by
  intro tree htree
  change r.outcome.map f = .ok tree at htree
  cases hout : r.outcome with
  | error e =>
    rw [hout] at htree
    cases htree
  | ok inner =>
    rw [hout] at htree
    cases htree
    obtain ⟨taken, hlater, hinner, hder⟩ := hr hout
    refine ⟨front ++ taken, ?_, hgood inner hinner, ?_⟩
    · calc before = front ++ later := hbefore
        _ = front ++ (taken ++ r.rest) := by rw [← hlater]
        _ = front ++ taken ++ r.rest := (List.append_assoc ..).symm
    · intro hspelled
      refine hderive taken ?_ (hder ?_)
      · exact fun token hmem => hspelled token (List.mem_append_left taken hmem)
      · exact fun token hmem => hspelled token (List.mem_append_right front hmem)

section soundness

variable {ctx : Context} {tokens : List Token}

/-- The numeric expression at the front of the tokens is read soundly. -/
def NumExpr.ReadsSoundly (ctx : Context) (tokens : List Token) : Prop :=
  (NumExpr.read ctx tokens).Sound (fun e => ctx.Resolves .number e.references)
    (Grammar.Num ctx.kinds)

def Term.ReadsSoundly (ctx : Context) (tokens : List Token) : Prop :=
  (Term.read ctx tokens).Sound (fun e => ctx.Resolves .number e.references)
    (Grammar.Term ctx.kinds)

def Factor.ReadsSoundly (ctx : Context) (tokens : List Token) : Prop :=
  (Factor.read ctx tokens).Sound (fun e => ctx.Resolves .number e.references)
    (Grammar.Factor ctx.kinds)

theorem Operator.sum?_isSome {kind : TokenKind} {op : Operator} (h : Operator.sum? kind = some op) :
    kind = .plus ∨ kind = .dash := by
  unfold Operator.sum? at h
  split at h
  · exact .inl rfl
  · exact .inr rfl
  · cases h

theorem Operator.product?_isSome {kind : TokenKind} {op : Operator}
    (h : Operator.product? kind = some op) : kind = .star ∨ kind = .slash := by
  unfold Operator.product? at h
  split at h
  · exact .inl rfl
  · exact .inr rfl
  · cases h

theorem NumExpr.readsSoundly_of_term (hterm : Term.ReadsSoundly ctx tokens)
    (hrest : ∀ later : List Token, later.length < tokens.length → NumExpr.ReadsSoundly ctx later) :
    NumExpr.ReadsSoundly ctx tokens := by
  unfold NumExpr.ReadsSoundly
  unfold Term.ReadsSoundly at hterm
  rw [NumExpr.read]
  split
  case h_1 => exact .of_error rfl
  case h_2 heq =>
    rw [heq] at hterm
    rintro tree ⟨⟩
    obtain ⟨taken, hbefore, hgood, hderive⟩ := hterm rfl
    exact ⟨taken, hbefore, hgood, fun hspelled => .single (hderive hspelled)⟩
  case h_3 term token rest _ heq =>
    rw [heq] at hterm
    obtain ⟨taken, hbefore, hgood, hderive⟩ := hterm rfl
    simp only at hbefore
    split
    case h_1 =>
      rintro tree ⟨⟩
      exact ⟨taken, hbefore, hgood, fun hspelled => .single (hderive hspelled)⟩
    case h_2 op hop =>
      have hlater : rest.length < tokens.length := by
        rw [hbefore]
        simp only [List.length_append, List.length_cons]
        omega
      refine (hrest rest hlater).prepend (taken ++ [token]) (by simp [hbefore]) _ ?_ ?_ _
      · exact fun e he => hgood.append he
      · intro more hspelled hmore
        rw [List.append_assoc]
        refine .chain (hderive ?_) (Operator.sum?_isSome hop) hmore
        exact fun t ht => hspelled t (List.mem_append_left _ ht)

theorem Term.readsSoundly_of_factor (hfactor : Factor.ReadsSoundly ctx tokens)
    (hrest : ∀ later : List Token, later.length < tokens.length → Term.ReadsSoundly ctx later) :
    Term.ReadsSoundly ctx tokens := by
  unfold Term.ReadsSoundly
  unfold Factor.ReadsSoundly at hfactor
  rw [Term.read]
  split
  case h_1 => exact .of_error rfl
  case h_2 heq =>
    rw [heq] at hfactor
    rintro tree ⟨⟩
    obtain ⟨taken, hbefore, hgood, hderive⟩ := hfactor rfl
    exact ⟨taken, hbefore, hgood, fun hspelled => .single (hderive hspelled)⟩
  case h_3 factor token rest _ heq =>
    rw [heq] at hfactor
    obtain ⟨taken, hbefore, hgood, hderive⟩ := hfactor rfl
    simp only at hbefore
    split
    case h_1 =>
      rintro tree ⟨⟩
      exact ⟨taken, hbefore, hgood, fun hspelled => .single (hderive hspelled)⟩
    case h_2 op hop =>
      have hlater : rest.length < tokens.length := by
        rw [hbefore]
        simp only [List.length_append, List.length_cons]
        omega
      refine (hrest rest hlater).prepend (taken ++ [token]) (by simp [hbefore]) _ ?_ ?_ _
      · exact fun e he => hgood.append he
      · intro more hspelled hmore
        rw [List.append_assoc]
        refine .chain (hderive ?_) (Operator.product?_isSome hop) hmore
        exact fun t ht => hspelled t (List.mem_append_left _ ht)

/-- A literal is read soundly if its tokens are a factor whenever it has a value. -/
theorem Factor.sound_of_number {before : List Token} {r : Reading Factor before} {sign : String}
    {token : Token} (taken : List Token) (hout : r.outcome = (token.number sign).map Factor.literal)
    (hbefore : before = taken ++ r.rest)
    (hderive : ∀ n, token.number sign = .ok n → (∀ t ∈ taken, t.WellSpelled) →
      Grammar.Factor ctx.kinds taken) :
    r.Sound (fun e => ctx.Resolves .number e.references) (Grammar.Factor ctx.kinds) := by
  intro tree htree
  rw [hout] at htree
  cases hn : token.number sign with
  | error e =>
    rw [hn] at htree
    cases htree
  | ok n =>
    rw [hn] at htree
    cases htree
    exact ⟨taken, hbefore, Context.Resolves.nil, hderive n hn⟩

theorem Token.integer_or_float {token : Token} (h : token.isNumber = true) :
    token.kind = .integer ∨ token.kind = .float := by
  simpa [Token.isNumber] using h

/-- A literal without a sign is a factor. -/
theorem Factor.sound_literal {token : Token} {rest : List Token} (hnumber : token.isNumber = true) :
    ((Reading.stay rest ((token.number "").map Factor.literal)).behind token).Sound
      (fun e => ctx.Resolves .number e.references) (Grammar.Factor ctx.kinds) := by
  refine Factor.sound_of_number [token] rfl rfl ?_
  intro n hn hspelled
  have hself := hspelled token (List.mem_singleton_self token)
  obtain hkind | hkind := Token.integer_or_float hnumber
  · obtain ⟨value, hliteral⟩ := Token.exists_literal hkind hself
    exact .integer hliteral ((Token.number_isOk_iff hliteral hself).mp ⟨n, hn⟩)
  · exact .float hkind

/-- A literal with a minus sign is a factor. -/
theorem Factor.sound_signed {sign token : Token} {rest : List Token} (hsign : sign.kind = .dash)
    (hnumber : token.isNumber = true) :
    (((Reading.stay rest ((token.number "-").map Factor.literal)).behind token).behind sign).Sound
      (fun e => ctx.Resolves .number e.references) (Grammar.Factor ctx.kinds) := by
  refine Factor.sound_of_number [sign, token] rfl rfl ?_
  intro n hn hspelled
  obtain hkind | hkind := Token.integer_or_float hnumber
  · obtain ⟨value, hliteral⟩ := Token.exists_literal hkind (hspelled token (by simp))
    exact .signed hsign hliteral ((Token.number_minus_isOk_iff hliteral).mp ⟨n, hn⟩)
  · exact .negate hsign (.float hkind)

theorem Factor.readsSoundly_of_num
    (hfactor : ∀ later : List Token, later.length < tokens.length → Factor.ReadsSoundly ctx later)
    (hnum : ∀ later : List Token, later.length < tokens.length → NumExpr.ReadsSoundly ctx later) :
    Factor.ReadsSoundly ctx tokens := by
  unfold Factor.ReadsSoundly
  rw [Factor.read.eq_def]
  split
  case h_1 => exact .of_error rfl
  case h_2 token rest =>
    split
    case h_1 hkind => exact Factor.sound_literal (by simp [Token.isNumber, hkind])
    case h_2 hkind => exact Factor.sound_literal (by simp [Token.isNumber, hkind])
    case h_3 hkind =>
      split
      case h_1 => exact .of_error rfl
      case h_2 next later =>
        split
        case isTrue hnumber => exact Factor.sound_signed hkind hnumber
        case isFalse =>
          refine (hfactor (next :: later) (by simp)).prepend [token] rfl _ ?_ ?_ _
          · exact fun e he => he
          · exact fun taken _ hinner => .negate hkind hinner
    case h_4 hkind =>
      have hinner := hnum rest (by simp)
      unfold NumExpr.ReadsSoundly at hinner
      split
      case h_1 => exact .of_error rfl
      case h_2 => exact .of_error rfl
      case h_3 inner close left _ heq =>
        rw [heq] at hinner
        obtain ⟨taken, hbefore, hgood, hderive⟩ := hinner rfl
        split
        case isTrue hclose =>
          rintro tree ⟨⟩
          refine ⟨token :: (taken ++ [close]), ?_, hgood, ?_⟩
          · simp [hbefore, Reading.behind, Reading.within]
          · intro hspelled
            refine .paren hkind (hderive ?_) hclose
            intro t ht
            exact hspelled t (by simp [ht])
        case isFalse => exact .of_error rfl
    case h_5 hkind =>
      split
      case h_1 => exact .of_error rfl
      case h_2 ref href =>
        rintro tree ⟨⟩
        obtain ⟨hkinds, hresolves⟩ := Context.reference_eq_ok href
        exact ⟨[token], rfl, hresolves, fun _ => .reference ⟨hkind, hkinds⟩⟩
    case h_6 => exact .of_error rfl

theorem readsSoundly (ctx : Context) (tokens : List Token) :
    NumExpr.ReadsSoundly ctx tokens ∧ Term.ReadsSoundly ctx tokens ∧
      Factor.ReadsSoundly ctx tokens := by
  induction hn : tokens.length using Nat.strongRecOn generalizing tokens with
  | ind n ih =>
    subst hn
    have hfactor := Factor.readsSoundly_of_num (fun later h => (ih _ h later rfl).2.2)
      (fun later h => (ih _ h later rfl).1)
    have hterm := Term.readsSoundly_of_factor hfactor (fun later h => (ih _ h later rfl).2.1)
    exact ⟨NumExpr.readsSoundly_of_term hterm (fun later h => (ih _ h later rfl).1), hterm, hfactor⟩

theorem StringOperand.read_eq_ok {token : Token} {operand : StringOperand}
    (h : StringOperand.read ctx token = .ok operand) :
    ctx.Resolves .string operand.references ∧ Grammar.Operand ctx.kinds token := by
  unfold StringOperand.read at h
  split at h
  case h_1 hkind =>
    cases h
    exact ⟨.nil, .inl hkind⟩
  case h_2 hkind =>
    cases href : ctx.reference .string token with
    | error e =>
      rw [href] at h
      cases h
    | ok ref =>
      rw [href] at h
      cases h
      obtain ⟨hkinds, hresolves⟩ := Context.reference_eq_ok href
      exact ⟨hresolves, .inr ⟨hkind, hkinds⟩⟩
  case h_3 => cases h

theorem StringExpr.read_sound (ctx : Context) (tokens : List Token) :
    (StringExpr.read ctx tokens).Sound (fun e => ctx.Resolves .string e.references)
      (Grammar.Str ctx.kinds) := by
  fun_induction StringExpr.read ctx tokens with
  | case1 => exact .of_error rfl
  | case2 => exact .of_error rfl
  | case3 token operand hoperand =>
    obtain ⟨hresolves, hderive⟩ := StringOperand.read_eq_ok hoperand
    rintro tree ⟨⟩
    exact ⟨[token], rfl, hresolves, fun _ => .single hderive⟩
  | case4 token operand hoperand next later hnext ih =>
    obtain ⟨hresolves, hderive⟩ := StringOperand.read_eq_ok hoperand
    refine ih.prepend [token, next] rfl _ ?_ ?_ (List.suffix_append [token, next] later)
    · exact fun e he => hresolves.append he
    · exact fun taken _ hrest => .chain hderive hnext hrest
  | case5 token operand hoperand next later hnext =>
    obtain ⟨hresolves, hderive⟩ := StringOperand.read_eq_ok hoperand
    rintro tree ⟨⟩
    exact ⟨[token], rfl, hresolves, fun _ => .single hderive⟩

/-- What is read as an expression of a kind is one, and its variables are resolved. -/
theorem Expr.read_sound (ctx : Context) (kind : Kind) (tokens : List Token) :
    (Expr.read ctx kind tokens).Sound
      (fun e => e.kind = kind ∧ ctx.Resolves kind e.references) (Grammar.Expr ctx.kinds kind) := by
  unfold Expr.read
  split
  case h_1 => exact .of_error rfl
  case h_2 => exact .of_error rfl
  case h_3 =>
    split
    case isFalse => exact .of_error rfl
    case isTrue =>
      cases kind with
      | number =>
        refine (readsSoundly ctx tokens).1.prepend [] rfl _ ?_ ?_ List.suffix_rfl
        · exact fun e he => ⟨rfl, he⟩
        · exact fun taken _ he => .number he
      | string =>
        refine (StringExpr.read_sound ctx tokens).prepend [] rfl _ ?_ ?_ List.suffix_rfl
        · exact fun e he => ⟨rfl, he⟩
        · exact fun taken _ he => .string he

end soundness

/-! ## Completeness -/

/-- The reading succeeds and leaves these tokens. -/
def Reading.Takes {α : Type} {before : List Token} (r : Reading α before) (rest : List Token) :
    Prop :=
  (∃ tree, r.outcome = .ok tree) ∧ r.rest = rest

theorem Reading.Takes.map {α β : Type} {before rest : List Token} {r : Reading α before}
    (h : r.Takes rest) (f : α → β) : (r.map f).Takes rest := by
  obtain ⟨⟨tree, htree⟩, hrest⟩ := h
  refine ⟨⟨f tree, ?_⟩, hrest⟩
  simp [Reading.map, htree, Except.map]

/-- The first token, if there is one, does not go on with a chain of factors. -/
def NoProduct : List Token → Prop
  | [] => True
  | token :: _ => Operator.product? token.kind = none

/-- The first token, if there is one, does not go on with a chain of terms. -/
def NoSum : List Token → Prop
  | [] => True
  | token :: _ => Operator.sum? token.kind = none

section completeness

variable {ctx : Context} {tokens rest later : List Token} {op : Token} {o : Operator}

theorem NumExpr.takes_of_term (h : (Term.read ctx tokens).Takes rest) (hrest : NoSum rest) :
    (NumExpr.read ctx tokens).Takes rest := by
  obtain ⟨⟨term, hterm⟩, hleft⟩ := h
  rw [NumExpr.read]
  generalize Term.read ctx tokens = r at hterm hleft ⊢
  obtain ⟨outcome, left, suffix⟩ := r
  cases hterm
  cases hleft
  cases left with
  | nil => exact ⟨⟨_, rfl⟩, rfl⟩
  | cons token left =>
    simp only [show Operator.sum? token.kind = none from hrest]
    exact ⟨⟨_, rfl⟩, rfl⟩

theorem NumExpr.takes_of_chain (h : (Term.read ctx tokens).Takes (op :: later))
    (hop : Operator.sum? op.kind = some o) (hlater : (NumExpr.read ctx later).Takes rest) :
    (NumExpr.read ctx tokens).Takes rest := by
  obtain ⟨⟨term, hterm⟩, hleft⟩ := h
  rw [NumExpr.read]
  generalize Term.read ctx tokens = r at hterm hleft ⊢
  obtain ⟨outcome, left, suffix⟩ := r
  cases hterm
  cases hleft
  simp only [hop]
  exact hlater.map _

theorem Term.takes_of_factor (h : (Factor.read ctx tokens).Takes rest) (hrest : NoProduct rest) :
    (Term.read ctx tokens).Takes rest := by
  obtain ⟨⟨factor, hfactor⟩, hleft⟩ := h
  rw [Term.read]
  generalize Factor.read ctx tokens = r at hfactor hleft ⊢
  obtain ⟨outcome, left, suffix⟩ := r
  cases hfactor
  cases hleft
  cases left with
  | nil => exact ⟨⟨_, rfl⟩, rfl⟩
  | cons token left =>
    simp only [show Operator.product? token.kind = none from hrest]
    exact ⟨⟨_, rfl⟩, rfl⟩

theorem Term.takes_of_chain (h : (Factor.read ctx tokens).Takes (op :: later))
    (hop : Operator.product? op.kind = some o) (hlater : (Term.read ctx later).Takes rest) :
    (Term.read ctx tokens).Takes rest := by
  obtain ⟨⟨factor, hfactor⟩, hleft⟩ := h
  rw [Term.read]
  generalize Factor.read ctx tokens = r at hfactor hleft ⊢
  obtain ⟨outcome, left, suffix⟩ := r
  cases hfactor
  cases hleft
  simp only [hop]
  exact hlater.map _

theorem Factor.takes_paren {opening closing : Token} (hopening : opening.kind = .leftParen)
    (hclosing : closing.kind = .rightParen)
    (h : (NumExpr.read ctx tokens).Takes (closing :: rest)) :
    (Factor.read ctx (opening :: tokens)).Takes rest := by
  obtain ⟨⟨inner, hinner⟩, hleft⟩ := h
  rw [Factor.read.eq_def]
  simp only [hopening]
  generalize NumExpr.read ctx tokens = r at hinner hleft ⊢
  obtain ⟨outcome, left, suffix⟩ := r
  cases hinner
  cases hleft
  simp only [hclosing, if_true]
  exact ⟨⟨_, rfl⟩, rfl⟩

theorem Factor.takes_literal {token : Token} {n : Number} (hnumber : token.isNumber = true)
    (hn : token.number "" = .ok n) : (Factor.read ctx (token :: rest)).Takes rest := by
  rw [Factor.read.eq_def]
  obtain hkind | hkind := Token.integer_or_float hnumber <;>
    simp only [hkind, hn] <;>
    exact ⟨⟨_, rfl⟩, rfl⟩

theorem Factor.takes_signed {sign token : Token} {n : Number} (hsign : sign.kind = .dash)
    (hnumber : token.isNumber = true) (hn : token.number "-" = .ok n) :
    (Factor.read ctx (sign :: token :: rest)).Takes rest := by
  rw [Factor.read.eq_def]
  simp only [hsign, hnumber, if_true, hn]
  exact ⟨⟨_, rfl⟩, rfl⟩

theorem Factor.takes_negate {sign token : Token} (hsign : sign.kind = .dash)
    (hnumber : token.isNumber = false) (h : (Factor.read ctx (token :: later)).Takes rest) :
    (Factor.read ctx (sign :: token :: later)).Takes rest := by
  rw [Factor.read.eq_def]
  simp only [hsign, hnumber, Bool.false_eq_true, if_false]
  exact h.map _

theorem Factor.takes_variable {token : Token} (h : Grammar.Variable ctx.kinds .number token) :
    (Factor.read ctx (token :: rest)).Takes rest := by
  obtain ⟨ref, href⟩ := Context.exists_reference_of_kinds h.2
  rw [Factor.read.eq_def]
  simp only [h.1, href]
  exact ⟨⟨_, rfl⟩, rfl⟩

/-- A factor is a lone literal, or it begins with a token that is no literal. -/
theorem Factor.literal_or_head {kinds : String → Option Kind} {ts : List Token}
    (h : Grammar.Factor kinds ts) :
    (∃ token, ts = [token] ∧
      (token.kind = .float ∨ ∃ value, Grammar.Literal token value ∧ value ≤ Grammar.largest)) ∨
      ∃ token us, ts = token :: us ∧ token.isNumber = false := by
  cases h with
  | integer hliteral hvalue => exact .inl ⟨_, rfl, .inr ⟨_, hliteral, hvalue⟩⟩
  | float hkind => exact .inl ⟨_, rfl, .inl hkind⟩
  | signed hsign => exact .inr ⟨_, _, rfl, by simp [Token.isNumber, hsign]⟩
  | negate hsign => exact .inr ⟨_, _, rfl, by simp [Token.isNumber, hsign]⟩
  | paren hopening => exact .inr ⟨_, _, rfl, by simp [Token.isNumber, hopening]⟩
  | reference hvar => exact .inr ⟨_, _, rfl, by simp [Token.isNumber, hvar.1]⟩

/-- A negated factor is read with its sign. Only a literal takes the sign in. -/
theorem Factor.takes_negate_of_factor {sign : Token} {ts : List Token} (hsign : sign.kind = .dash)
    (hinner : Grammar.Factor ctx.kinds ts) (hspelled : ∀ token ∈ ts, token.WellSpelled)
    (h : (Factor.read ctx (ts ++ rest)).Takes rest) :
    (Factor.read ctx (sign :: (ts ++ rest))).Takes rest := by
  obtain ⟨token, rfl, hliteral⟩ | ⟨token, us, rfl, hnumber⟩ := Factor.literal_or_head hinner
  · have hself := hspelled token (List.mem_singleton_self token)
    obtain hkind | ⟨value, hliteral, hvalue⟩ := hliteral
    · obtain ⟨n, hn⟩ := Token.exists_number_minus_of_float hkind hself
      exact Factor.takes_signed hsign (by simp [Token.isNumber, hkind]) hn
    · obtain ⟨n, hn⟩ := (Token.number_minus_isOk_iff hliteral).mpr (Nat.le_succ_of_le hvalue)
      exact Factor.takes_signed hsign (by simp [Token.isNumber, hliteral.1]) hn
  · exact Factor.takes_negate hsign hnumber h

mutual

/-- A numeric expression is read whole. -/
theorem NumExpr.takes_of_num : ∀ {ts rest : List Token}, Grammar.Num ctx.kinds ts →
    (∀ token ∈ ts, token.WellSpelled) → NoSum rest → NoProduct rest →
    (NumExpr.read ctx (ts ++ rest)).Takes rest
  | _, _, .single term, hspelled, hsum, hproduct =>
    NumExpr.takes_of_term (Term.takes_of_term term hspelled hproduct) hsum
  | _, rest, @Grammar.Num.chain _ ts us op term hop more, hspelled, hsum, hproduct => by
    rw [List.append_assoc]
    have hterm : (Term.read ctx (ts ++ (op :: us ++ rest))).Takes (op :: us ++ rest) := by
      refine Term.takes_of_term term (fun t ht => hspelled t (by simp [ht])) ?_
      obtain hop | hop := hop <;> simp [NoProduct, hop, Operator.product?]
    have hmore : (NumExpr.read ctx (us ++ rest)).Takes rest :=
      NumExpr.takes_of_num more (fun t ht => hspelled t (by simp [ht])) hsum hproduct
    obtain hop | hop := hop
    · exact NumExpr.takes_of_chain hterm (by rw [hop]; rfl) hmore
    · exact NumExpr.takes_of_chain hterm (by rw [hop]; rfl) hmore

theorem Term.takes_of_term : ∀ {ts rest : List Token}, Grammar.Term ctx.kinds ts →
    (∀ token ∈ ts, token.WellSpelled) → NoProduct rest → (Term.read ctx (ts ++ rest)).Takes rest
  | _, rest, .single factor, hspelled, hproduct =>
    Term.takes_of_factor (Factor.takes_of_factor rest factor hspelled) hproduct
  | _, rest, @Grammar.Term.chain _ ts us op factor hop more, hspelled, hproduct => by
    rw [List.append_assoc]
    have hfactor := Factor.takes_of_factor (op :: us ++ rest) factor
      (fun t ht => hspelled t (by simp [ht]))
    have hmore : (Term.read ctx (us ++ rest)).Takes rest :=
      Term.takes_of_term more (fun t ht => hspelled t (by simp [ht])) hproduct
    obtain hop | hop := hop
    · exact Term.takes_of_chain hfactor (by rw [hop]; rfl) hmore
    · exact Term.takes_of_chain hfactor (by rw [hop]; rfl) hmore

theorem Factor.takes_of_factor : ∀ {ts : List Token} (rest : List Token),
    Grammar.Factor ctx.kinds ts → (∀ token ∈ ts, token.WellSpelled) →
    (Factor.read ctx (ts ++ rest)).Takes rest
  | _, _, @Grammar.Factor.integer _ token value hliteral hvalue, hspelled => by
    have hself := hspelled token (List.mem_singleton_self token)
    obtain ⟨n, hn⟩ := (Token.number_isOk_iff hliteral hself).mpr hvalue
    exact Factor.takes_literal (by simp [Token.isNumber, hliteral.1]) hn
  | _, _, @Grammar.Factor.float _ token hkind, hspelled => by
    obtain ⟨n, hn⟩ := Token.exists_number_of_float hkind
      (hspelled token (List.mem_singleton_self token))
    exact Factor.takes_literal (by simp [Token.isNumber, hkind]) hn
  | _, _, .signed hsign hliteral hvalue, _ => by
    obtain ⟨n, hn⟩ := (Token.number_minus_isOk_iff hliteral).mpr hvalue
    exact Factor.takes_signed hsign (by simp [Token.isNumber, hliteral.1]) hn
  | _, rest, .negate hsign inner, hspelled => by
    have hinner := fun t ht => hspelled t (List.mem_cons_of_mem _ ht)
    exact Factor.takes_negate_of_factor hsign inner hinner
      (Factor.takes_of_factor rest inner hinner)
  | _, rest, @Grammar.Factor.paren _ opening closing us hopening inner hclosing, hspelled => by
    have hinner : (NumExpr.read ctx (us ++ closing :: rest)).Takes (closing :: rest) := by
      refine NumExpr.takes_of_num inner (fun t ht => hspelled t (by simp [ht])) ?_ ?_
      · simp [NoSum, hclosing, Operator.sum?]
      · simp [NoProduct, hclosing, Operator.product?]
    have happend : opening :: (us ++ [closing]) ++ rest = opening :: (us ++ closing :: rest) := by
      simp
    rw [happend]
    exact Factor.takes_paren hopening hclosing hinner
  | _, _, .reference hvar, _ => Factor.takes_variable hvar

end

theorem StringOperand.exists_read_of_operand {token : Token}
    (h : Grammar.Operand ctx.kinds token) :
    ∃ operand, StringOperand.read ctx token = .ok operand := by
  unfold StringOperand.read
  obtain hkind | ⟨hkind, hkinds⟩ := h
  · simp only [hkind]
    exact ⟨_, rfl⟩
  · obtain ⟨ref, href⟩ := Context.exists_reference_of_kinds hkinds
    simp only [hkind, href]
    exact ⟨_, rfl⟩

/-- A string expression is read whole. -/
theorem StringExpr.takes_of_str {ts : List Token} (h : Grammar.Str ctx.kinds ts)
    (hsum : NoSum rest) : (StringExpr.read ctx (ts ++ rest)).Takes rest := by
  induction h with
  | @single token operand =>
    obtain ⟨operand, hoperand⟩ := StringOperand.exists_read_of_operand operand
    cases rest with
    | nil =>
      rw [List.append_nil, StringExpr.read.eq_def]
      simp only [hoperand]
      exact ⟨⟨_, rfl⟩, rfl⟩
    | cons next rest =>
      have hplus : next.kind ≠ .plus := by
        intro hplus
        simp [NoSum, hplus, Operator.sum?] at hsum
      rw [List.singleton_append, StringExpr.read.eq_def]
      simp only [hoperand, if_neg hplus]
      exact ⟨⟨_, rfl⟩, rfl⟩
  | chain operand hop _ ih =>
    obtain ⟨operand, hoperand⟩ := StringOperand.exists_read_of_operand operand
    rw [List.cons_append, List.cons_append, StringExpr.read.eq_def]
    simp only [hoperand, hop, if_true]
    exact ih.map _

/-- The first token of an expression tells its kind. -/
theorem Expr.exists_head {kind : Kind} {ts : List Token} (h : Grammar.Expr ctx.kinds kind ts) :
    ∃ token us, ts = token :: us ∧ ctx.kindOf? token = .ok (some kind) := by
  have named {kind : Kind} {token : Token} (hvar : Grammar.Variable ctx.kinds kind token) :
      ctx.kindOf? token = .ok (some kind) := by
    obtain ⟨binding, hb, rfl⟩ := Option.map_eq_some_iff.mp hvar.2
    simp [Context.kindOf?, hvar.1, hb]
  have factor {ts : List Token} (h : Grammar.Factor ctx.kinds ts) :
      ∃ token us, ts = token :: us ∧ ctx.kindOf? token = .ok (some .number) := by
    cases h with
    | integer hliteral => exact ⟨_, _, rfl, by simp [Context.kindOf?, hliteral.1]⟩
    | float hkind => exact ⟨_, _, rfl, by simp [Context.kindOf?, hkind]⟩
    | signed hsign => exact ⟨_, _, rfl, by simp [Context.kindOf?, hsign]⟩
    | negate hsign => exact ⟨_, _, rfl, by simp [Context.kindOf?, hsign]⟩
    | paren hopening => exact ⟨_, _, rfl, by simp [Context.kindOf?, hopening]⟩
    | reference hvar => exact ⟨_, _, rfl, named hvar⟩
  have term {ts : List Token} (h : Grammar.Term ctx.kinds ts) :
      ∃ token us, ts = token :: us ∧ ctx.kindOf? token = .ok (some .number) := by
    cases h with
    | single h => exact factor h
    | chain h =>
      obtain ⟨token, us, rfl, hkind⟩ := factor h
      exact ⟨token, _, rfl, hkind⟩
  cases h with
  | number h =>
    cases h with
    | single h => exact term h
    | chain h =>
      obtain ⟨token, us, rfl, hkind⟩ := term h
      exact ⟨token, _, rfl, hkind⟩
  | string h =>
    have operand {token : Token} (h : Grammar.Operand ctx.kinds token) :
        ctx.kindOf? token = .ok (some .string) := by
      obtain hkind | hvar := h
      · simp [Context.kindOf?, hkind]
      · exact named hvar
    cases h with
    | single h => exact ⟨_, _, rfl, operand h⟩
    | chain h => exact ⟨_, _, rfl, operand h⟩

/-- An expression of the kind that is asked for is read whole. -/
theorem Expr.takes_of_expr {kind : Kind} {ts : List Token} (h : Grammar.Expr ctx.kinds kind ts)
    (hspelled : ∀ token ∈ ts, token.WellSpelled) (hsum : NoSum rest) (hproduct : NoProduct rest) :
    (Expr.read ctx kind (ts ++ rest)).Takes rest := by
  obtain ⟨token, us, rfl, hkind⟩ := Expr.exists_head h
  have hfront : ctx.kindOf? (ctx.front (token :: us ++ rest)) = .ok (some kind) := hkind
  simp only [Expr.read, hfront, if_true]
  cases h with
  | number h => exact (NumExpr.takes_of_num h hspelled hsum hproduct).map _
  | string h => exact (StringExpr.takes_of_str h hsum).map _

end completeness

end LineScript
