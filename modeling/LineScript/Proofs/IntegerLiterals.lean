import LineScript.Proofs.Println

/-!
# Integer literals

A numeral with or without a minus sign is read as the integer that it stands for, exactly if
that integer fits into 64 bits. The sign belongs to the literal, so the smallest integer can
be written although its digits alone are too large. Main statement:
`interpret_println_numeral`.
-/

namespace LineScript

/-! ## Values of numerals -/

namespace Number

variable {digits : List Char}

theorem digits?_eq_ofDigitChars (h : Pattern.integer.complete digits = true) :
    digits? digits = some (Nat.ofDigitChars 10 digits 0) := by
  simp only [Pattern.complete, Bool.and_eq_true, Bool.not_eq_true'] at h
  simp [digits?, h.1, h.2, Nat.ofDigitChars_eq_foldl]

theorem ofIntegerText?_of_digits (h : Pattern.integer.complete digits = true) :
    ofIntegerText? digits = ofInt? (Nat.ofDigitChars 10 digits 0) := by
  rw [ofIntegerText?_of_complete h, digits?_eq_ofDigitChars h, Option.bind_some]

theorem ofIntegerText?_of_minus (h : Pattern.integer.complete digits = true) :
    ofIntegerText? ('-' :: digits) = ofInt? (-(Nat.ofDigitChars 10 digits 0 : Int)) := by
  rw [ofIntegerText?, digits?_eq_ofDigitChars h, Option.bind_some]

theorem text_of_ofInt? {i : Int} {n : Number} (h : ofInt? i = some n) : n.text = toString i := by
  obtain ⟨m, rfl, rfl⟩ := ofInt?_eq_some h
  rfl

theorem ofInt?_toInt (n : Int64) : ofInt? n.toInt = some (.integer n) := by
  rw [ofInt?, if_pos ⟨Int64.minValue_le_toInt n, Int64.toInt_le n⟩, Int64.ofInt_toInt]

end Number

/-- A minus sign at the position. -/
def Token.dash (position : Position) : Token :=
  { kind := .dash, literal := "-", position }

theorem Token.scanned_dash (position : Position) : (dash position).Scanned := by
  have hcomplete : (Pattern.fixed ['-']).complete "-".toList = true := by decide
  exact ⟨⟨.dash, .fixed ['-'], 2⟩, by decide, hcomplete, rfl⟩

/-- A decimal numeral with or without a minus sign in front of it. -/
structure Numeral where
  minus : Bool
  digits : String
  complete : Pattern.integer.complete digits.toList = true

namespace Numeral

variable (l : Numeral) (position : Position)

def sign : String :=
  if l.minus then "-" else ""

def text : String :=
  l.sign ++ l.digits

/-- The integer that the numeral stands for. -/
def value : Int :=
  let magnitude : Int := Nat.ofDigitChars 10 l.digits.toList 0
  if l.minus then -magnitude else magnitude

/-- The token of the digits, in a numeral at the position. -/
def digitsToken : Token :=
  { kind := .integer
    literal := l.digits
    position := { position with column := position.column + l.sign.length } }

/-- The tokens of a numeral at the position. -/
def tokens : List Token :=
  if l.minus then [Token.dash position, l.digitsToken position] else [l.digitsToken position]

theorem ofIntegerText?_text : Number.ofIntegerText? l.text.toList = Number.ofInt? l.value := by
  unfold text sign value
  cases l.minus with
  | false =>
    simp only [Bool.false_eq_true, if_false, String.empty_append]
    exact Number.ofIntegerText?_of_digits l.complete
  | true =>
    simp only [if_true, String.toList_append]
    exact Number.ofIntegerText?_of_minus l.complete

theorem exists_text_eq (i : Int) : ∃ l : Numeral, l.text = toString i ∧ l.value = i := by
  have hrepr (k : Nat) : (toString k).toList = Nat.toDigits 10 k := by
    rw [Nat.toString_eq_ofList_toDigits, String.toList_ofList]
  have hcomplete (k : Nat) : Pattern.integer.complete (toString k).toList = true := by
    rw [hrepr, Pattern.complete_integer_iff]
    exact ⟨Nat.toDigits_ne_nil, fun c hc => Nat.isDigit_of_mem_toDigits (by decide) (by decide) hc⟩
  cases i with
  | ofNat k =>
    refine ⟨⟨false, toString k, hcomplete k⟩, ?_, ?_⟩
    · simp only [text, sign, Bool.false_eq_true, if_false, String.empty_append]
      rfl
    · simp only [value, hrepr, Nat.ofDigitChars_ten_toDigits, Bool.false_eq_true, if_false]
      rfl
  | negSucc k =>
    refine ⟨⟨true, toString (k + 1), hcomplete (k + 1)⟩, ?_, ?_⟩
    · simp only [text, sign, if_true]
      rfl
    · simp only [value, hrepr, Nat.ofDigitChars_ten_toDigits, if_true]
      rfl

end Numeral

/-! ## Scanning -/

/-- No token begins with a minus sign but the sign itself. -/
theorem Scan.longest_dash (text : List Char) : Longest ['-'] ('-' :: text) where
  front := ⟨text, rfl⟩
  token := by decide
  most piece hpiece htoken := by
    have hfixed : ∀ d ∈ Lexicon.definitions,
        d.pattern.spelling.head? = some '-' → d.pattern.spelling.length ≤ 1 := by decide
    obtain ⟨d, hd, hcomplete⟩ := htoken
    cases piece with
    | nil => exact Nat.zero_le _
    | cons c more =>
      obtain ⟨rfl, -⟩ := List.cons_prefix_cons.mp hpiece
      have hpattern : d.pattern = .fixed ('-' :: more) := Lexicon.pattern_eq_ofText hd hcomplete
      have hlength := hfixed d hd (by rw [hpattern]; rfl)
      rwa [hpattern] at hlength

namespace Numeral

variable (l : Numeral) (position : Position)

theorem cuts_digitsToken : Scan.Cuts (l.digitsToken position).position l.digits.toList
    [l.digitsToken position] :=
  .single ⟨⟨.integer, .integer, 1⟩, by decide, l.complete, rfl⟩

theorem cuts_tokens : Scan.Cuts position l.text.toList (l.tokens position) := by
  have hdigits := l.cuts_digitsToken position
  cases hminus : l.minus with
  | false =>
    have hsign : l.sign = "" := by simp [sign, hminus]
    have hposition : (l.digitsToken position).position = position := by
      simp [digitsToken, hsign]
    rw [hposition] at hdigits
    rwa [text, hsign, String.empty_append, tokens, hminus, if_neg Bool.false_ne_true]
  | true =>
    have hsign : l.sign = "-" := by simp [sign, hminus]
    have hlater : Scan.Cuts { position with column := position.column + "-".length }
        l.digits.toList [l.digitsToken position] := by
      rw [← hsign]
      exact hdigits
    have hlongest : Scan.Longest "-".toList ("-".toList ++ l.digits.toList) :=
      Scan.longest_dash l.digits.toList
    have hcuts := Scan.Cuts.of_longest (Token.scanned_dash position) hlongest nofun hlater
    rw [text, hsign, String.toList_append, tokens, hminus, if_pos rfl]
    exact hcuts

/-! ## Reading -/

/-- The literal that is read from the numeral, or why it cannot be read. -/
def outcome : Except SyntaxError Expr :=
  match Number.ofInt? l.value with
  | some n => .ok (.number (.single (.single (.literal n))))
  | none => .error
    { position := (l.digitsToken position).position, cause := .literalTooLarge l.text }

end Numeral

section reader

variable {names : String → Option Arena.Binding} {stop : Position} {tokens left : List Token}

/-- A factor alone is an expression in front of the end of a statement. -/
theorem Expr.reader_of_factor {outcome : Except SyntaxError Factor}
    (hkind : Context.kindOf? ⟨names, stop⟩ (Token.frontOf stop tokens) = .ok (some .number))
    (h : (Factor.reader names stop tokens).Gives outcome left)
    (hends : Statement.endsBefore (Token.frontOf stop left).kind = true) :
    (Expr.reader names .number stop tokens).Gives
      (outcome.map fun factor => .number (.single (.single factor))) left := by
  obtain ⟨hsum, hproduct, -⟩ := Operator.none_of_endsBefore hends
  cases outcome with
  | error e =>
    have hterm := (Term.chains_reader names).failed h
    exact Expr.reader_of_number hkind ((NumExpr.chains_reader names).failed hterm)
  | ok factor =>
    have hterm := (Term.chains_reader names).ended h hproduct
    exact Expr.reader_of_number hkind ((NumExpr.chains_reader names).ended hterm hsum)

end reader

namespace Numeral

variable (l : Numeral) (position : Position) {names : String → Option Arena.Binding}
variable {stop : Position} {left : List Token}

theorem number_digitsToken :
    (((l.digitsToken position).number l.sign).map Factor.literal).map
        (fun factor => Expr.number (.single (.single factor))) =
      l.outcome position := by
  have hkind : (l.digitsToken position).kind ≠ .float := nofun
  have hread : Number.ofIntegerText? (l.sign ++ (l.digitsToken position).literal).toList =
      Number.ofInt? l.value := l.ofIntegerText?_text
  simp only [Token.number, if_neg hkind, hread, outcome]
  cases Number.ofInt? l.value <;> rfl

theorem kindOf?_tokens : Context.kindOf? ⟨names, stop⟩
    (Token.frontOf stop (l.tokens position ++ left)) = .ok (some .number) := by
  unfold tokens
  cases l.minus <;> rfl

theorem factor_reader_tokens : (Factor.reader names stop (l.tokens position ++ left)).Gives
    (((l.digitsToken position).number l.sign).map .literal) left := by
  unfold tokens sign
  cases l.minus with
  | false => exact Factor.reader_of_number rfl
  | true => exact Factor.reader_of_signed rfl rfl

/-- A numeral in front of the end of a statement is read whole. -/
theorem reader_tokens (hends : Statement.endsBefore (Token.frontOf stop left).kind = true) :
    (Expr.reader names .number stop (l.tokens position ++ left)).Gives (l.outcome position)
      left := by
  rw [← l.number_digitsToken position]
  exact Expr.reader_of_factor (l.kindOf?_tokens position) (l.factor_reader_tokens position) hends

theorem readsLine_tokens : Expr.ReadsLine (l.tokens position) (l.outcome position) := by
  intro names stop newline hnewline
  refine ⟨.number, l.kindOf?_tokens position, l.reader_tokens position ?_⟩
  simp [hnewline, Statement.endsBefore]

/-! ## Printing -/

theorem lines_println : Text.lines ("println " ++ l.text) = ["println " ++ l.text] := by
  obtain ⟨hne, hdigits⟩ := Pattern.complete_integer_iff.mp l.complete
  have hlast : l.text.toList.getLast? = some (l.digits.toList.getLast hne) := by
    rw [text, String.toList_append, List.getLast?_append_of_ne_nil _ hne,
      List.getLast?_eq_some_getLast hne]
  have hblank := Pattern.isBlank_of_inWord
    (Pattern.inWord_of_isDigit (hdigits _ (List.getLast_mem hne)))
  refine Text.lines_println ?_ hlast hblank
  rw [text, String.toList_append, List.mem_append, not_or]
  constructor
  · unfold sign
    cases l.minus <;> decide
  · intro hfeed
    exact absurd (hdigits _ hfeed) (by decide)

section interpret

variable {σ : Type} {out : Sink σ} {bytes : σ → ByteArray} {sink : σ}

/-- A numeral is printed as the integer that it stands for if that fits into 64 bits, and is
refused otherwise. -/
theorem interpret_println (hlossless : out.Lossless bytes sink) :
    let i := interpret out sink ("println " ++ l.text)
    let fits := -(Grammar.largest + 1 : Int) ≤ l.value ∧ l.value ≤ Grammar.largest
    (i.Succeeds ↔ fits) ∧ (fits → i.Prints bytes sink (toString l.value ++ "\n")) ∧
      (¬ fits → i.Rejects sink
        { position := { line := 1, column := 9 + l.sign.length }
          cause := .literalTooLarge l.text }) := by
  intro i fits
  have hcuts := l.cuts_tokens { line := 1, column := 9 }
  have hread := l.readsLine_tokens { line := 1, column := 9 }
  have hfits : (Number.ofInt? l.value).isSome ↔ fits := Number.ofInt?_isSome_iff
  cases hvalue : Number.ofInt? l.value with
  | some n =>
    rw [hvalue] at hfits
    rw [outcome, hvalue] at hread
    have hprints : i.Prints bytes sink (n.text ++ "\n") :=
      LineScript.interpret_println hlossless l.lines_println hcuts hread fun _ => rfl
    rw [Number.text_of_ofInt? hvalue] at hprints
    have hyes : fits := hfits.mp rfl
    exact ⟨⟨fun _ => hyes, fun _ => hprints.toSucceeds⟩, fun _ => hprints,
      fun hno => absurd hyes hno⟩
  | none =>
    rw [hvalue] at hfits
    rw [outcome, hvalue] at hread
    have hrejects : i.Rejects sink _ := interpret_println_error l.lines_println hcuts hread rfl
    have hno : ¬ fits := fun hyes => Bool.false_ne_true (hfits.mpr hyes)
    exact ⟨⟨fun h => absurd h hrejects.not_succeeds, fun h => absurd h hno⟩,
      fun h => absurd h hno, fun _ => hrejects⟩

end interpret

end Numeral

/-- The text of an integer is an expression that has the integer as its value. -/
theorem Number.exists_reads_text (n : Int64) (line : Nat) : ∃ tokens e,
    Token.ofLine line (Number.integer n).text = .ok tokens ∧
      (∀ (ctx : Context) (left : List Token),
        Statement.endsBefore (ctx.front left).kind = true →
          (Expr.read ctx .number (tokens ++ left)).Gives (.ok e) left) ∧
      ∀ scene, e.eval scene = .ok (.number (.integer n)) := by
  obtain ⟨l, htext, hvalue⟩ := Numeral.exists_text_eq n.toInt
  refine ⟨l.tokens { line, column := 1 }, .number (.single (.single (.literal (.integer n)))),
    ?_, ?_, fun _ => rfl⟩
  · have hcuts := l.cuts_tokens { line, column := 1 }
    rw [htext] at hcuts
    exact Scan.scan_of_cuts hcuts
  · intro ctx left hends
    rw [Context.front_eq] at hends
    have hread : (Expr.reader ctx.resolve? .number ctx.stop _).Gives _ left :=
      l.reader_tokens { line, column := 1 } hends
    rw [Numeral.outcome, hvalue, ofInt?_toInt] at hread
    exact hread

/-- Integer literals are read exactly up to the limits of 64 bits. For digits `d` of the value
`v`, `println d` prints `v` if it is at most the largest integer, and `println -d` prints `-v`
if `v` is at most one more. Otherwise the only error is at the digits, and nothing is written.
So the text of every integer is an expression that has this integer as its value, wherever a
statement ends behind it. -/
theorem interpret_println_numeral {σ : Type} {out : Sink σ} {bytes : σ → ByteArray} {sink : σ}
    (hlossless : out.Lossless bytes sink) :
    (∀ d : String, d ≠ "" → (∀ c ∈ d.toList, c.isDigit = true) →
      let v := Nat.ofDigitChars 10 d.toList 0
      let plain := interpret out sink ("println " ++ d)
      let minus := interpret out sink ("println -" ++ d)
      ((plain.Succeeds ↔ v ≤ Grammar.largest) ∧
        (v ≤ Grammar.largest → plain.Prints bytes sink (toString v ++ "\n")) ∧
        (Grammar.largest < v → plain.Rejects sink
          { position := { line := 1, column := 9 }, cause := .literalTooLarge d })) ∧
      (minus.Succeeds ↔ v ≤ Grammar.largest + 1) ∧
        (v ≤ Grammar.largest + 1 → minus.Prints bytes sink (toString (-(v : Int)) ++ "\n")) ∧
        (Grammar.largest + 1 < v → minus.Rejects sink
          { position := { line := 1, column := 10 }, cause := .literalTooLarge ("-" ++ d) })) ∧
    ∀ (n : Int64) (line : Nat), ∃ tokens e,
      Token.ofLine line (Number.integer n).text = .ok tokens ∧
        (∀ (ctx : Context) (left : List Token),
          Statement.endsBefore (ctx.front left).kind = true →
            (Expr.read ctx .number (tokens ++ left)).Gives (.ok e) left) ∧
        ∀ scene, e.eval scene = .ok (.number (.integer n)) := by
  constructor
  · intro d hne hdigits v plain minus
    have hcomplete : Pattern.integer.complete d.toList = true :=
      Pattern.complete_integer_iff.mpr ⟨by simpa using hne, hdigits⟩
    constructor
    · let l : Numeral := ⟨false, d, hcomplete⟩
      have hfits : -(Grammar.largest + 1 : Int) ≤ l.value ∧ l.value ≤ Grammar.largest ↔
          v ≤ Grammar.largest := by
        simp only [l, Numeral.value, Bool.false_eq_true, if_false]
        omega
      have htext : l.text = d := String.empty_append
      have hl := l.interpret_println hlossless
      simp only [hfits, htext, Nat.not_le] at hl
      exact hl
    · let l : Numeral := ⟨true, d, hcomplete⟩
      have hfits : -(Grammar.largest + 1 : Int) ≤ l.value ∧ l.value ≤ Grammar.largest ↔
          v ≤ Grammar.largest + 1 := by
        simp only [l, Numeral.value, if_true]
        omega
      have hword : "println -" = "println " ++ "-" := by decide
      have hsource : "println -" ++ d = "println " ++ l.text := by
        rw [hword, String.append_assoc]
        rfl
      have hcolumn : 9 + l.sign.length = 10 := by
        simp only [l, Numeral.sign, if_true]
        decide
      have hl := l.interpret_println hlossless
      simp only [hfits, ← hsource, hcolumn, Nat.not_le] at hl
      exact hl
  · exact Number.exists_reads_text

/-- The digits of the smallest integer are too large without its sign, and zeros in front of
them change nothing. -/
theorem interpret_println_numeral_smallest :
    let d := "009223372036854775808"
    Buffer.sink.Lossless Buffer.bytes Buffer.unlimited ∧ d ≠ "" ∧
      (∀ c ∈ d.toList, c.isDigit = true) ∧
      (interpret Buffer.sink Buffer.unlimited ("println " ++ d)).Rejects Buffer.unlimited
        { position := { line := 1, column := 9 }, cause := .literalTooLarge d } ∧
      (interpret Buffer.sink Buffer.unlimited ("println -" ++ d)).Prints Buffer.bytes
        Buffer.unlimited ("-9223372036854775808" ++ "\n") := by
  intro d
  have hne : d ≠ "" := by decide
  have hdigits : ∀ c ∈ d.toList, c.isDigit = true := by
    have hall : d.toList.all Char.isDigit = true := by decide
    exact List.all_eq_true.mp hall
  have hvalue : Nat.ofDigitChars 10 d.toList 0 = Grammar.largest + 1 := by decide
  obtain ⟨⟨-, -, hrejects⟩, -, hprints, -⟩ :=
    (interpret_println_numeral Buffer.lossless_unlimited).1 d hne hdigits
  rw [hvalue] at hrejects hprints
  exact ⟨Buffer.lossless_unlimited, hne, hdigits, hrejects (Nat.lt_succ_self _),
    hprints (Nat.le_refl _)⟩

end LineScript
