import LineScript.Proofs.Acceptance
import LineScript.Proofs.Reading.Trees
import LineScript.Proofs.Scanning.Viability
import Mathlib.Data.List.Forall2
import Mathlib.Data.Nat.Digits.Defs

/-!
# Trees as images of their tokens

A tree is flattened into pieces, in the order in which they are written
(`Statement.piecesAll`), and a list of tokens is cut into lexemes, where a minus sign
is joined with the number right behind it unless it stands for a difference
(`Lexeme.ofTokens`). If lines are read without errors, the pieces of the tree are the
lexemes of the lines, one by one: nothing is lost, added or moved
(`Program.pieces_parse`).

Reading goes from left to right, and whether a minus sign is a difference depends on
the token in front of it. `Covers` therefore relates two places in the tokens, each
with a flag that tells whether an operand ends there, and pieces of trees are covered
one after the other.
-/

namespace LineScript

/-! ## Lexemes -/

namespace TokenKind

/-- Whether an operand ends with a token of this kind. A minus sign behind it stands for
a difference. -/
def endsOperand : TokenKind → Bool
  | .identifier | .integer | .float | .string | .rightParen => true
  | _ => false

/-- Whether tokens of this kind leave a trace in the tree. -/
def isShown : TokenKind → Bool
  | .newline | .hash | .endOfInput => false
  | _ => true

end TokenKind

/-- A token, or a number together with the minus sign right in front of it. -/
inductive Lexeme where
  | single (t : Token)
  | signed (sign number : Token)

namespace Lexeme

def isShown : Lexeme → Bool
  | .single t => t.kind.isShown
  | .signed _ _ => true

/-- Joins each minus sign with the number behind it, unless an operand ends in front of
it. Whether one ends in front of the first token is told by `operand`. -/
def join (operand : Bool) : List Token → List Lexeme
  | [] => []
  | [token] => [.single token]
  | token :: next :: rest =>
    if token.kind = .dash ∧ operand = false ∧ next.isNumber = true then
      .signed token next :: join true rest
    else .single token :: join token.kind.endsOperand (next :: rest)

/-- The lexemes of a token stream that leave a trace in the tree. -/
def ofTokens (tokens : List Token) : List Lexeme :=
  (join false tokens).filter isShown

variable {operand : Bool} {token sign number : Token} {rest : List Token}

theorem join_cons (h : token.kind = .dash → operand = false →
    ∀ next ∈ rest.head?, next.isNumber = false) :
    join operand (token :: rest) = .single token :: join token.kind.endsOperand rest := by
  cases rest with
  | nil => simp [join]
  | cons next rest =>
    rw [join, if_neg]
    rintro ⟨hdash, hoperand, hnumber⟩
    rw [h hdash hoperand next rfl] at hnumber
    cases hnumber

theorem join_signed (hsign : sign.kind = .dash) (hnumber : number.isNumber = true) :
    join false (sign :: number :: rest) = .signed sign number :: join true rest := by
  rw [join, if_pos ⟨hsign, rfl, hnumber⟩]

/-- A last token that is no number is a lexeme of its own. -/
theorem join_concat (hnumber : token.isNumber = false) (tokens : List Token) :
    join operand (tokens ++ [token]) = join operand tokens ++ [.single token] := by
  fun_induction join operand tokens with
  | case1 => rfl
  | case2 operand first =>
    rw [List.cons_append, List.nil_append, join_cons]
    · simp [join]
    · rintro - - next ⟨⟩
      exact hnumber
  | case3 operand first next rest hjoined ih =>
    rw [List.cons_append, List.cons_append, join, if_pos hjoined, ih, List.cons_append]
  | case4 operand first next rest hsingle ih =>
    rw [List.cons_append, List.cons_append, join, if_neg hsingle, ← List.cons_append, ih,
      List.cons_append]

/-- The end of input leaves no trace. -/
theorem ofTokens_append_endAt (tokens : List Token) (stop : Position) :
    ofTokens (tokens ++ [Token.endAt stop]) = ofTokens tokens := by
  have hnumber : (Token.endAt stop).isNumber = false := rfl
  have hhidden : isShown (.single (Token.endAt stop)) = false := rfl
  rw [ofTokens, join_concat hnumber, List.filter_append, List.filter_singleton, hhidden,
    Bool.cond_false, List.append_nil, ofTokens]

end Lexeme

/-! ## Values of literals -/

/-- The value of decimal digits, of which the last counts least. -/
def decimalValue (digits : List Char) : Nat :=
  Nat.ofDigits 10 (digits.reverse.map fun c => c.toNat - '0'.toNat)

/-- The token's text stands for the number, if a minus sign is put in front of it in case
of `negative`. -/
inductive Token.Denotes (token : Token) (negative : Bool) : Number → Prop where
  | integer {n : Int64} (hkind : token.kind = .integer)
      (hn : n.toInt = (if negative then -1 else 1) * (decimalValue token.literal.toList : Int)) :
      Denotes token negative (.integer n)
  | float {x : Float} {whole fraction : List Char} (hkind : token.kind = .float)
      (htext : token.literal.toList = whole ++ '.' :: fraction)
      (hx : x = Float.ofScientific (decimalValue (whole ++ fraction)) true fraction.length) :
      Denotes token negative (.float (if negative then -x else x))

namespace Number

variable {text : List Char} {value : Nat} {n : Number}

theorem digits?_eq_some (h : digits? text = some value) : value = decimalValue text := by
  unfold digits? at h
  split at h
  case isTrue => cases h
  case isFalse =>
    cases h
    rw [decimalValue, Nat.ofDigits_eq_foldr, List.foldr_map, List.foldl_eq_foldr_reverse]
    simp only [Nat.cast_id, Nat.add_comm]

/-- A decimal fraction is read as the number of its digits, moved behind the point. -/
theorem unsignedFloat?_eq_some {x : Float} (hcomplete : Pattern.float.complete text = true)
    (h : unsignedFloat? text = some x) :
    ∃ whole fraction, text = whole ++ '.' :: fraction ∧
      x = Float.ofScientific (decimalValue (whole ++ fraction)) true fraction.length := by
  obtain ⟨whole, fraction, rfl, hwhole, hfraction⟩ := Pattern.complete_float_iff.mp hcomplete
  rw [unsignedFloat?_of_digits (Pattern.complete_integer_iff.mp hwhole).2 hfraction] at h
  obtain ⟨value, hvalue, rfl⟩ := Option.map_eq_some_iff.mp h
  exact ⟨whole, fraction, rfl, by rw [digits?_eq_some hvalue]⟩

end Number

namespace Token

variable {token : Token} {n : Number}

theorem number_eq_ok {sign : String} (h : token.number sign = .ok n) :
    (if token.kind = .float then Number.ofFloatText? else Number.ofIntegerText?)
      (sign ++ token.literal).toList = some n := by
  unfold number at h
  simp only at h
  split at h
  case h_1 heq =>
    cases h
    exact heq
  case h_2 => cases h

theorem denotes_of_number (hspelled : token.WellSpelled) (hnumber : token.isNumber = true)
    (h : token.number "" = .ok n) : token.Denotes false n := by
  have hread := number_eq_ok h
  rw [String.empty_append] at hread
  obtain hkind | hkind := integer_or_float hnumber
  · rw [if_neg (by simp [hkind]), Number.ofIntegerText?_of_complete (hspelled.1 hkind)] at hread
    obtain ⟨value, hvalue, hfits⟩ := Option.bind_eq_some_iff.mp hread
    obtain ⟨m, rfl, hm⟩ := Number.ofInt?_eq_some hfits
    exact .integer hkind (by simp [hm, Number.digits?_eq_some hvalue])
  · rw [if_pos hkind, Number.ofFloatText?_of_complete (hspelled.2 hkind)] at hread
    obtain ⟨x, hx, rfl⟩ := Option.map_eq_some_iff.mp hread
    obtain ⟨whole, fraction, htext, hvalue⟩ :=
      Number.unsignedFloat?_eq_some (hspelled.2 hkind) hx
    exact .float hkind htext hvalue

theorem denotes_of_number_minus (hspelled : token.WellSpelled) (hnumber : token.isNumber = true)
    (h : token.number "-" = .ok n) : token.Denotes true n := by
  have htext : ("-" ++ token.literal).toList = '-' :: token.literal.toList := by
    simp [String.toList_append]
  have hread := number_eq_ok h
  rw [htext] at hread
  obtain hkind | hkind := integer_or_float hnumber
  · rw [if_neg (by simp [hkind]), Number.ofIntegerText?] at hread
    obtain ⟨value, hvalue, hfits⟩ := Option.bind_eq_some_iff.mp hread
    obtain ⟨m, rfl, hm⟩ := Number.ofInt?_eq_some hfits
    exact .integer hkind (by simp [hm, Number.digits?_eq_some hvalue])
  · rw [if_pos hkind, Number.ofFloatText?] at hread
    obtain ⟨x, hx, rfl⟩ := Option.map_eq_some_iff.mp hread
    obtain ⟨whole, fraction, htext, hvalue⟩ :=
      Number.unsignedFloat?_eq_some (hspelled.2 hkind) hx
    exact .float hkind htext hvalue

/-- The quotes of a string literal can be put back. -/
theorem quoted_unquoted (h : Pattern.quoted.complete token.literal.toList = true) :
    token.literal = "\"" ++ unquoted token.literal ++ "\"" := by
  obtain ⟨inner, htext, -⟩ := Pattern.complete_quoted_iff.mp h
  apply String.toList_injective
  simp [unquoted, htext, String.toList_append]

end Token

/-! ## Pieces of trees -/

/-- A part of a written tree. A token has the position that the tree stores for it, if
there is one, and a literal of a number is known by its value alone. -/
inductive Piece where
  | token (kind : TokenKind) (text : String) (position : Option Position)
  | number (n : Number)

namespace Piece

/-- A token of a kind that has only one text. -/
def mark (kind : TokenKind) (position : Option Position) : Piece :=
  .token kind (kind.spelling?.getD "") position

/-- The piece is what the lexeme says. -/
inductive Shows : Piece → Lexeme → Prop where
  | token {t : Token} {position : Option Position} (hposition : ∀ p ∈ position, p = t.position) :
      Shows (.token t.kind t.literal position) (.single t)
  | number {t : Token} {n : Number} (hn : t.Denotes false n) : Shows (.number n) (.single t)
  | signed {sign t : Token} {n : Number} (hsign : sign.kind = .dash) (hn : t.Denotes true n) :
      Shows (.number n) (.signed sign t)

end Piece

/-- The kind of the tokens that an operator is written with. -/
def Operator.kind : Operator → TokenKind
  | .add => .plus
  | .sub => .dash
  | .mul => .star
  | .div => .slash

def Reference.piece (ref : Reference) : Piece :=
  .token .identifier ref.name (some ref.position)

mutual

def NumExpr.pieces : NumExpr → List Piece
  | .single term => term.pieces
  | .chain term op rest => term.pieces ++ .mark op.kind none :: rest.pieces

def Term.pieces : Term → List Piece
  | .single factor => factor.pieces
  | .chain factor op rest => factor.pieces ++ .mark op.kind none :: rest.pieces

def Factor.pieces : Factor → List Piece
  | .literal n => [.number n]
  | .paren inner => .mark .leftParen none :: (inner.pieces ++ [.mark .rightParen none])
  | .negate inner => .mark .dash none :: inner.pieces
  | .reference ref => [ref.piece]

end

def StringOperand.piece : StringOperand → Piece
  | .literal text => .token .string ("\"" ++ text ++ "\"") none
  | .reference ref => ref.piece

def StringExpr.pieces : StringExpr → List Piece
  | .single operand => [operand.piece]
  | .chain operand rest => operand.piece :: .mark .plus none :: rest.pieces

def Expr.pieces : Expr → List Piece
  | .number e => e.pieces
  | .string e => e.pieces

namespace Statement

mutual

/-- What is written of a statement, from left to right. The position of the statement is
that of its first piece. -/
def pieces : Statement → List Piece
  | .null => []
  | .declare position name _ kind initial =>
    .mark (.keyword .var) (some position) :: .token .identifier name none ::
      .mark (Grammar.typeWord kind) none ::
        initial.elim [] fun e => .mark .equals none :: e.pieces
  | .assign position name _ compound value =>
    .token .identifier name (some position) ::
      .mark (if compound then .plusEquals else .equals) none :: value.pieces
  | .print position newline payload =>
    .mark (.keyword (if newline then .println else .print)) (some position) ::
      payload.elim [] Expr.pieces
  | .block position _ body =>
    .mark .leftBrace (some position) :: (piecesAll body ++ [.mark .rightBrace none])

def piecesAll : List Statement → List Piece
  | [] => []
  | statement :: rest => statement.pieces ++ piecesAll rest

end

end Statement

/-! ## Levels of operators

A chain holds its first member and the whole rest behind the operator, so it is grouped
to the right by its type. What is left to say is that sums are chains of sums and
products are chains of products. -/

mutual

def NumExpr.Grouped : NumExpr → Prop
  | .single term => term.Grouped
  | .chain term op rest => (op = .add ∨ op = .sub) ∧ term.Grouped ∧ rest.Grouped

def Term.Grouped : Term → Prop
  | .single factor => factor.Grouped
  | .chain factor op rest => (op = .mul ∨ op = .div) ∧ factor.Grouped ∧ rest.Grouped

def Factor.Grouped : Factor → Prop
  | .literal _ => True
  | .paren inner => inner.Grouped
  | .negate inner => inner.Grouped
  | .reference _ => True

end

def Expr.Grouped : Expr → Prop
  | .number e => e.Grouped
  | .string _ => True

namespace Statement

mutual

/-- The statement was read, with all statements in it, and its expressions are grouped. -/
def Understood : Statement → Prop
  | .null => False
  | .declare _ _ _ _ initial => ∀ e ∈ initial, e.Grouped
  | .assign _ _ _ _ value => value.Grouped
  | .print _ _ payload => ∀ e ∈ payload, e.Grouped
  | .block _ _ body => AllUnderstood body

def AllUnderstood : List Statement → Prop
  | [] => True
  | statement :: rest => statement.Understood ∧ AllUnderstood rest

end

end Statement

/-! ## Covered tokens -/

/-- The pieces are the lexemes between two places of a list of tokens. The flags tell
whether an operand ends in front of each place. -/
structure Covers (pieces : List Piece) (operand : Bool) (tokens : List Token) (operand' : Bool)
    (left : List Token) : Prop where
  suffix : left <:+ tokens
  shown : ∃ lexemes, List.Forall₂ Piece.Shows pieces (lexemes.filter Lexeme.isShown) ∧
    Lexeme.join operand tokens = lexemes ++ Lexeme.join operand' left

namespace Covers

variable {ps qs : List Piece} {piece : Piece} {b c d : Bool} {ts us vs : List Token}
variable {token : Token} {kind : TokenKind} {position : Option Position}

theorem refl (b : Bool) (ts : List Token) : Covers [] b ts b ts :=
  ⟨List.suffix_rfl, [], .nil, rfl⟩

theorem trans (h : Covers ps b ts c us) (h' : Covers qs c us d vs) :
    Covers (ps ++ qs) b ts d vs := by
  obtain ⟨xs, hxs, hjoin⟩ := h.shown
  obtain ⟨ys, hys, hjoin'⟩ := h'.shown
  refine ⟨h'.suffix.trans h.suffix, xs ++ ys, ?_, ?_⟩
  · rw [List.filter_append]
    exact List.rel_append hxs hys
  · rw [hjoin, hjoin', List.append_assoc]

theorem exact (h : Covers ps b ts c us) (hexact : ∀ t ∈ ts, t.Exact) : ∀ t ∈ us, t.Exact :=
  fun t ht => hexact t (h.suffix.subset ht)

/-- Tokens that leave no trace are passed over. -/
theorem hidden (hkind : token.kind = .newline ∨ token.kind = .hash)
    (h : Covers ps false ts c us) : Covers ps b (token :: ts) c us := by
  have hsingle : Covers [] b (token :: ts) false ts := by
    refine ⟨List.suffix_cons token ts, [.single token], ?_, ?_⟩
    · obtain hkind | hkind := hkind <;> simp [Lexeme.isShown, TokenKind.isShown, hkind]
    · rw [Lexeme.join_cons]
      · obtain hkind | hkind := hkind <;> simp [TokenKind.endsOperand, hkind]
      · obtain hkind | hkind := hkind <;> simp [hkind]
  exact hsingle.trans h

/-- A token that is no minus sign of a number is shown by a piece of its own. -/
theorem cons (hshows : piece.Shows (.single token)) (hshown : token.kind.isShown = true)
    (hdash : token.kind = .dash → b = false → ∀ next ∈ ts.head?, next.isNumber = false)
    (h : Covers ps token.kind.endsOperand ts c us) : Covers (piece :: ps) b (token :: ts) c us := by
  have hsingle : Covers [piece] b (token :: ts) token.kind.endsOperand ts := by
    refine ⟨List.suffix_cons token ts, [.single token], ?_, ?_⟩
    · rw [List.filter_singleton, Lexeme.isShown, hshown]
      exact .cons hshows .nil
    · rw [Lexeme.join_cons hdash, List.singleton_append]
  exact hsingle.trans h

theorem signed {sign number : Token} {n : Number} (hsign : sign.kind = .dash)
    (hnumber : number.isNumber = true) (hn : number.Denotes true n) :
    Covers [.number n] false (sign :: number :: ts) true ts := by
  refine ⟨List.suffix_append [sign, number] ts, [.signed sign number], ?_, ?_⟩
  · exact .cons (.signed hsign hn) .nil
  · rw [Lexeme.join_signed hsign hnumber, List.singleton_append]

theorem mark (hexact : token.Exact) (hkind : token.kind = kind)
    (hspelled : kind.spelling?.isSome = true) (hshown : kind.isShown = true)
    (hposition : ∀ p ∈ position, p = token.position)
    (hdash : kind = .dash → b = false → ∀ next ∈ ts.head?, next.isNumber = false)
    (h : Covers ps kind.endsOperand ts c us) :
    Covers (.mark kind position :: ps) b (token :: ts) c us := by
  subst hkind
  obtain ⟨text, htext⟩ := Option.isSome_iff_exists.mp hspelled
  have hliteral : token.kind.spelling?.getD "" = token.literal := by
    rw [htext, Option.getD_some, hexact.fixed htext]
  refine cons ?_ hshown hdash h
  rw [Piece.mark, hliteral]
  exact .token hposition

/-- A token whose kind has one text and is not that of a minus sign. -/
theorem fixed (hexact : token.Exact) (hkind : token.kind = kind)
    (hfixed : kind.spelling?.isSome = true ∧ kind.isShown = true ∧ kind ≠ .dash)
    (hposition : ∀ p ∈ position, p = token.position) (h : Covers ps kind.endsOperand ts c us) :
    Covers (.mark kind position :: ps) b (token :: ts) c us :=
  mark hexact hkind hfixed.1 hfixed.2.1 hposition (fun hdash => absurd hdash hfixed.2.2) h

/-- An operator stands behind an operand, so no minus sign is taken for that of a number. -/
theorem operator {op : Operator} (hexact : token.Exact) (hkind : token.kind = op.kind)
    (h : Covers ps false ts c us) : Covers (.mark op.kind none :: ps) true (token :: ts) c us := by
  have hends : op.kind.endsOperand = false := by cases op <;> rfl
  refine mark hexact hkind ?_ ?_ (by simp) (fun _ hoperand => absurd hoperand (by simp))
    (hends ▸ h)
  · cases op <;> rfl
  · cases op <;> rfl

theorem name (hkind : token.kind = .identifier) (hposition : ∀ p ∈ position, p = token.position)
    (h : Covers ps true ts c us) :
    Covers (.token .identifier token.literal position :: ps) b (token :: ts) c us := by
  rw [← hkind]
  refine cons (.token hposition) ?_ ?_ ?_
  · rw [hkind]
    rfl
  · simp [hkind]
  · rw [hkind]
    exact h

end Covers

/-! ## Expressions -/

theorem Operator.kind_of_sum? {kind : TokenKind} {op : Operator} (h : sum? kind = some op) :
    kind = op.kind ∧ (op = .add ∨ op = .sub) := by
  unfold sum? at h
  split at h <;> cases h <;> exact ⟨rfl, by simp⟩

theorem Operator.kind_of_product? {kind : TokenKind} {op : Operator}
    (h : product? kind = some op) : kind = op.kind ∧ (op = .mul ∨ op = .div) := by
  unfold product? at h
  split at h <;> cases h <;> exact ⟨rfl, by simp⟩

section expressions

variable {ctx : Context}

/-- A variable keeps the text and the position of its token. -/
theorem Context.piece_of_reference {kind : Kind} {token : Token} {ref : Reference}
    (h : ctx.reference kind token = .ok ref) :
    ref.piece = .token .identifier token.literal (some token.position) := by
  unfold Context.reference at h
  split at h
  case h_1 => cases h
  case h_2 =>
    split at h
    case isTrue =>
      cases h
      rfl
    case isFalse => cases h

theorem Covers.literal {token : Token} {rest : List Token} {n : Number}
    (hnumber : token.isNumber = true) (hn : token.Denotes false n) :
    Covers [.number n] false (token :: rest) true rest := by
  have hkind := Token.integer_or_float hnumber
  refine .cons (.number hn) ?_ ?_ ?_
  · obtain hkind | hkind := hkind <;> rw [hkind] <;> rfl
  · obtain hkind | hkind := hkind <;> simp [hkind]
  · obtain hkind | hkind := hkind <;> rw [hkind] <;> exact .refl true rest

theorem Covers.operand {token : Token} {rest left : List Token} {operand : StringOperand}
    {ps : List Piece} {b c : Bool} (hexact : token.Exact)
    (hoperand : StringOperand.read ctx token = .ok operand) (h : Covers ps true rest c left) :
    Covers (operand.piece :: ps) b (token :: rest) c left := by
  unfold StringOperand.read at hoperand
  split at hoperand
  case h_1 hkind =>
    cases hoperand
    rw [StringOperand.piece, ← Token.quoted_unquoted (hexact.quoted hkind), ← hkind]
    refine .cons (.token (by simp)) ?_ (by simp [hkind]) ?_
    · rw [hkind]
      rfl
    · rw [hkind]
      exact h
  case h_2 hkind =>
    cases href : ctx.reference .string token with
    | error e =>
      rw [href] at hoperand
      cases hoperand
    | ok ref =>
      rw [href] at hoperand
      cases hoperand
      rw [StringOperand.piece, Context.piece_of_reference href]
      exact .name hkind (by simp) h
  case h_3 => cases hoperand

mutual

theorem NumReads.covers {tokens left : List Token} {e : NumExpr} :
    NumReads ctx tokens e left → (∀ t ∈ tokens, t.Exact) →
      Covers e.pieces false tokens true left ∧ e.Grouped
  | .single first _, hexact => first.covers hexact
  | .chain first hop more, hexact => by
    obtain ⟨hkind, hlevel⟩ := Operator.kind_of_sum? hop
    obtain ⟨hfirst, hgrouped⟩ := first.covers hexact
    obtain ⟨hsign, hlater⟩ := List.forall_mem_cons.mp (hfirst.exact hexact)
    obtain ⟨hmore, hrest⟩ := more.covers hlater
    exact ⟨hfirst.trans (.operator hsign hkind hmore), hlevel, hgrouped, hrest⟩

theorem TermReads.covers {tokens left : List Token} {e : Term} :
    TermReads ctx tokens e left → (∀ t ∈ tokens, t.Exact) →
      Covers e.pieces false tokens true left ∧ e.Grouped
  | .single first _, hexact => first.covers hexact
  | .chain first hop more, hexact => by
    obtain ⟨hkind, hlevel⟩ := Operator.kind_of_product? hop
    obtain ⟨hfirst, hgrouped⟩ := first.covers hexact
    obtain ⟨hsign, hlater⟩ := List.forall_mem_cons.mp (hfirst.exact hexact)
    obtain ⟨hmore, hrest⟩ := more.covers hlater
    exact ⟨hfirst.trans (.operator hsign hkind hmore), hlevel, hgrouped, hrest⟩

theorem FactorReads.covers {tokens left : List Token} {e : Factor} :
    FactorReads ctx tokens e left → (∀ t ∈ tokens, t.Exact) →
      Covers e.pieces false tokens true left ∧ e.Grouped
  | .literal hnumber hn, hexact => by
    obtain ⟨htoken, -⟩ := List.forall_mem_cons.mp hexact
    exact ⟨.literal hnumber (Token.denotes_of_number htoken.spelled hnumber hn), trivial⟩
  | .signed hsign hnumber hn, hexact => by
    obtain ⟨-, htoken, -⟩ := List.forall_mem_cons.mp hexact |>.imp_right List.forall_mem_cons.mp
    exact ⟨.signed hsign hnumber (Token.denotes_of_number_minus htoken.spelled hnumber hn),
      trivial⟩
  | .negate hsign hnumber factor, hexact => by
    obtain ⟨hdash, hlater⟩ := List.forall_mem_cons.mp hexact
    obtain ⟨hinner, hgrouped⟩ := factor.covers hlater
    exact ⟨.mark hdash hsign rfl rfl (by simp) (by simp [hnumber]) hinner, hgrouped⟩
  | .paren hopening sum hclosing, hexact => by
    obtain ⟨hleft, hlater⟩ := List.forall_mem_cons.mp hexact
    obtain ⟨hinner, hgrouped⟩ := sum.covers hlater
    obtain ⟨hright, -⟩ := List.forall_mem_cons.mp (hinner.exact hlater)
    refine ⟨.fixed hleft hopening (by decide) (by simp) (hinner.trans ?_), hgrouped⟩
    exact .fixed hright hclosing (by decide) (by simp) (.refl true _)
  | .reference hkind href, _ => by
    rw [Factor.pieces, Context.piece_of_reference href]
    exact ⟨.name hkind (by simp) (.refl true _), trivial⟩

end

theorem StringReads.covers {tokens left : List Token} {e : StringExpr}
    (h : StringReads ctx tokens e left) (hexact : ∀ t ∈ tokens, t.Exact) :
    Covers e.pieces false tokens true left := by
  induction h with
  | single hoperand _ =>
    obtain ⟨htoken, -⟩ := List.forall_mem_cons.mp hexact
    exact .operand htoken hoperand (.refl true _)
  | chain hoperand hplus _ ih =>
    obtain ⟨htoken, hlater⟩ := List.forall_mem_cons.mp hexact
    obtain ⟨hsign, hlater⟩ := List.forall_mem_cons.mp hlater
    exact .operand htoken hoperand (.fixed hsign hplus (by decide) (by simp) (ih hlater))

theorem ExprReads.covers {tokens left : List Token} {e : Expr} (h : ExprReads ctx tokens e left)
    (hexact : ∀ t ∈ tokens, t.Exact) : Covers e.pieces false tokens true left ∧ e.Grouped := by
  cases h with
  | number sum => exact sum.covers hexact
  | string text => exact ⟨text.covers hexact, trivial⟩

theorem Expr.covers_read {kind : Kind} {tokens : List Token} {e : Expr}
    (h : (Expr.read ctx kind tokens).outcome = .ok e) (hexact : ∀ t ∈ tokens, t.Exact) :
    Covers e.pieces false tokens true (Expr.read ctx kind tokens).rest ∧ e.Grouped :=
  (Expr.exprReads_of_read h).covers hexact

end expressions

/-! ## Statements -/

section statements

variable {site : Site} {a b : Arena} {first : Token} {tokens left : List Token}
variable {statement : Statement}

/-- The end of a statement leaves no trace. -/
theorem Ends.covers (h : Ends tokens left) (operand : Bool) :
    ∃ operand', Covers [] operand tokens operand' left := by
  cases h with
  | input => exact ⟨operand, .refl operand []⟩
  | line hkind => exact ⟨false, .hidden (.inl hkind) (.refl false left)⟩
  | before => exact ⟨operand, .refl operand _⟩

theorem Ends.covers_behind {ps : List Piece} {mid : List Token} {operand : Bool}
    (h : Ends mid left) (operand' : Bool) (hcovers : Covers ps operand tokens operand' mid) :
    ∃ operand', Covers ps operand tokens operand' left := by
  obtain ⟨c, hends⟩ := h.covers operand'
  refine ⟨c, ?_⟩
  have hboth := hcovers.trans hends
  rwa [List.append_nil] at hboth

theorem Statement.kind_of_compound? {kind : TokenKind} {compound : Bool}
    (h : compound? kind = some compound) :
    kind = if compound then .plusEquals else .equals := by
  unfold compound? at h
  split at h <;> cases h <;> rfl

/-- No statement without statements inside it begins with a minus sign, so what stands in
front of it does not matter. -/
theorem LeafReads.covers (hread : LeafReads site a first tokens statement left b)
    (hexact : ∀ t ∈ first :: tokens, t.Exact) (operand : Bool) :
    (∃ operand', Covers statement.pieces operand (first :: tokens) operand' left) ∧
      statement.Understood := by
  obtain ⟨hfirstExact, hrest⟩ := List.forall_mem_cons.mp hexact
  cases hread with
  | @declare name type kind rest _ hfirst hname htype hfree ends =>
    obtain ⟨-, htypeExact, hlater⟩ :=
      (List.forall_mem_cons.mp hrest).imp_right List.forall_mem_cons.mp
    refine ⟨ends.covers_behind (Grammar.typeWord kind).endsOperand ?_,
      by simp [Statement.Understood]⟩
    refine .fixed hfirstExact hfirst (by decide) (by simp) (.name hname (by simp) ?_)
    exact .fixed htypeExact htype (by cases kind <;> decide) (by simp) (.refl _ rest)
  | @declareValue name type equals kind rest _ e hfirst hname htype hfree hequals hvalue ends =>
    obtain ⟨-, htypeExact, hlater⟩ :=
      (List.forall_mem_cons.mp hrest).imp_right List.forall_mem_cons.mp
    obtain ⟨hequalsExact, hlater⟩ := List.forall_mem_cons.mp hlater
    obtain ⟨hcovers, hgrouped⟩ := Expr.covers_read hvalue hlater
    refine ⟨ends.covers_behind true ?_, by simpa [Statement.Understood] using hgrouped⟩
    refine .fixed hfirstExact hfirst (by decide) (by simp) (.name hname (by simp) ?_)
    refine .fixed htypeExact htype (by cases kind <;> decide) (by simp) ?_
    exact .fixed hequalsExact hequals (by decide) (by simp) hcovers
  | @assign op compound binding rest _ e hfirst htarget hop hvalue ends =>
    obtain ⟨hopExact, hlater⟩ := List.forall_mem_cons.mp hrest
    obtain ⟨hcovers, hgrouped⟩ := Expr.covers_read hvalue hlater
    have hkind := Statement.kind_of_compound? hop
    refine ⟨ends.covers_behind true (.name hfirst (by simp) ?_), hgrouped⟩
    cases compound with
    | false => exact .fixed hopExact hkind (by decide) (by simp) hcovers
    | true => exact .fixed hopExact hkind (by decide) (by simp) hcovers
  | @print newline _ _ hfirst ends =>
    refine ⟨ends.covers_behind false ?_, by simp [Statement.Understood]⟩
    exact .fixed hfirstExact hfirst (by cases newline <;> decide) (by simp) (.refl _ tokens)
  | @printValue newline _ _ _ e hfirst hvalue ends =>
    obtain ⟨hcovers, hgrouped⟩ := Expr.covers_read hvalue hrest
    refine ⟨ends.covers_behind true ?_, by simpa [Statement.Understood] using hgrouped⟩
    exact .fixed hfirstExact hfirst (by cases newline <;> decide) (by simp) hcovers

/-- The brace that closes a nested body. -/
def Site.closingPieces (site : Site) : List Piece :=
  if site.nested then [.mark .rightBrace none] else []

/-- The statements of a body that is read without errors cover its tokens up to the brace
that closes it. -/
theorem BodyReads.covers {body : List Statement} {errors : List SyntaxError}
    {frames : Frames Arena.Binding} (hread : BodyReads site a tokens body left b errors)
    (herrors : errors = []) (h : site.InScope a frames) (hexact : ∀ t ∈ tokens, t.Exact)
    (operand : Bool) :
    (∃ operand', Covers (Statement.piecesAll body ++ site.closingPieces) operand tokens operand'
      left) ∧ Statement.AllUnderstood body := by
  induction hread generalizing frames operand with
  | @ended site =>
    have hroot : site.nested = false := by
      cases hnested : site.nested with
      | false => rfl
      | true => simp [Site.endErrors, hnested] at herrors
    refine ⟨⟨operand, ?_⟩, trivial⟩
    rw [Site.closingPieces, hroot]
    exact .refl operand []
  | stopped hkind => exact absurd hkind (hexact _ List.mem_cons_self).goesOn
  | blank hkind _ ih =>
    obtain ⟨⟨c, hcovers⟩, hunderstood⟩ := ih herrors h (List.forall_mem_cons.mp hexact).2 false
    exact ⟨⟨c, .hidden hkind hcovers⟩, hunderstood⟩
  | closed hkind hnested =>
    refine ⟨⟨false, ?_⟩, trivial⟩
    rw [Site.closingPieces, hnested]
    exact .fixed (hexact _ List.mem_cons_self) hkind (by decide) (by simp) (.refl false _)
  | stray => cases herrors
  | leaf hleaf hout _ ih =>
    obtain ⟨t, ht⟩ := h.exists_table
    have hstatement := (Statement.read_leaf_iff hleaf ht).mp ⟨hout, rfl, rfl⟩
    obtain ⟨⟨c, hfirst⟩, hunderstood⟩ := hstatement.covers hexact operand
    obtain ⟨⟨d, hlater⟩, hrest⟩ := ih herrors (h.leaf hstatement) (hfirst.exact hexact) c
    refine ⟨⟨d, ?_⟩, hunderstood, hrest⟩
    rw [Statement.piecesAll, List.append_assoc]
    exact hfirst.trans hlater
  | leafFailed => cases herrors
  | leafAborted => cases herrors
  | @block site a _ _ token rest closed next _ body later _ _ hkind inner ends _ ihInner ihOuter =>
    obtain ⟨hinside, herrors⟩ := List.append_eq_nil_iff.mp herrors
    obtain ⟨htoken, hrest⟩ := List.forall_mem_cons.mp hexact
    obtain ⟨⟨c, hbody⟩, hunderstood⟩ := ihInner hinside h.inner hrest false
    have hblock : ∃ c, Covers (Statement.block token.position (a.openTable (some site.table)).1
        body).pieces operand (token :: rest) c next :=
      ends.covers_behind c (.fixed htoken hkind (by decide) (by simp) hbody)
    obtain ⟨c, hblock⟩ := hblock
    obtain ⟨⟨d, hlater⟩, hall⟩ := ihOuter herrors (h.behind inner) (hblock.exact hexact) c
    refine ⟨⟨d, ?_⟩, hunderstood, hall⟩
    rw [Statement.piecesAll, List.append_assoc]
    exact hblock.trans hlater
  | blockFailed => simp at herrors

end statements

namespace Program

theorem stream_of_errors_eq_nil {lines : List String} (h : (parse lines).errors = [])
    (stop : Position) :
    Token.Stream 1 lines ((Cursor.ofLines lines).1.ahead ++ [Token.endAt stop]) := by
  have hlexical : (Cursor.ofLines lines).2 = [] := by
    unfold parse at h
    simp only at h
    split at h
    case isTrue hlexical => exact List.isEmpty_iff.mp hlexical
    case isFalse hlexical =>
      exact absurd (List.isEmpty_iff.mpr (List.map_eq_nil_iff.mp h)) hlexical
  exact Cursor.stream_iff.mpr ⟨hlexical, stop, rfl⟩

/-- The tree of lines that are read without errors is the image of their tokens: its
pieces are the lexemes of the lines, in the same order, with the positions that the tree
stores. No statement is missing, and chains are grouped by the levels of their operators. -/
theorem pieces_parse {lines : List String} (h : (parse lines).errors = []) :
    ∃ tokens, Token.Stream 1 lines tokens ∧
      List.Forall₂ Piece.Shows (Statement.piecesAll (parse lines).program.root.body)
        (Lexeme.ofTokens tokens) ∧
      Statement.AllUnderstood (parse lines).program.root.body ∧
      (parse lines).program.root.position = .start := by
  obtain ⟨hprogram, herrors⟩ := parse_of_errors_eq_nil h
  have hexact := Cursor.exact_ofLines lines
  have hscope := Site.InScope.outermost (Cursor.ofLines lines).1.closing.position
  have hread := bodyReads_ofTokens (Cursor.ofLines lines).1
  obtain ⟨⟨c, hcovers⟩, hunderstood⟩ := hread.covers herrors hscope hexact false
  obtain ⟨ts, us, -, hcloses, -⟩ :=
    hread.derivable herrors hscope fun t ht => (hexact t ht).toRegular
  -- Nothing is left behind the outermost body, and no brace closes it.
  generalize hleft : (readBody _ _ _).rest = left at hcovers hcloses
  cases hcloses with
  | brace hnested => cases hnested
  | input =>
    obtain ⟨lexemes, hshows, hjoin⟩ := hcovers.shown
    refine ⟨_, stream_of_errors_eq_nil h .start, ?_, hprogram ▸ hunderstood, hprogram ▸ rfl⟩
    rw [Lexeme.ofTokens_append_endAt, Lexeme.ofTokens, hjoin, hprogram]
    simpa [Site.closingPieces, Site.outermost, Site.nested, Lexeme.join] using hshows

/-- Minus signs of a difference, of numbers and of negations, with a block, a comment and
quotes between them. -/
theorem pieces_parse_signs :
    let lines := ["var a number = 4 - 2", "var b number = -3 - -2.50 * -(4 / a)",
      "\x7b # inner", "var a string = \"x\"", "a += \"\" + a", "\x7d", "println - -b"]
    let parsed := parse lines
    parsed.errors = [] ∧ ∃ tokens, Token.Stream 1 lines tokens ∧
      List.Forall₂ Piece.Shows (Statement.piecesAll parsed.program.root.body)
        (Lexeme.ofTokens tokens) ∧
      Statement.AllUnderstood parsed.program.root.body ∧
      parsed.program.root.position = .start := by
  intro lines parsed
  have hread : parsed.errors = [] := by decide +kernel
  exact ⟨hread, pieces_parse hread⟩

end Program

end LineScript
