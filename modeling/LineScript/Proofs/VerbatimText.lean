import LineScript.Proofs.Println

/-!
# Text is printed verbatim

What stands between two quotes is one token, whatever characters it has, and reading takes
nothing but the quotes away. So a sum of quoted texts has the texts in a row as its value,
and printing it writes exactly them (`interpret_println_texts`).
-/

namespace LineScript

/-! ## Sums of texts -/

namespace Text

variable {first next : String} {later : List String}

/-- A text between quotes. -/
def quoted (text : String) : String :=
  "\"" ++ text ++ "\""

/-- Quoted texts with plus signs between them. -/
def summed (texts : List String) : String :=
  " + ".intercalate (texts.map quoted)

theorem toList_quoted (text : String) : (quoted text).toList = '"' :: (text.toList ++ ['"']) := by
  simp [quoted]

theorem summed_singleton : summed [first] = quoted first := by
  simp [summed]

theorem summed_cons_cons :
    summed (first :: next :: later) = quoted first ++ " + " ++ summed (next :: later) := by
  simp only [summed, List.map_cons, String.intercalate_cons_cons]

theorem toList_summed_cons_cons :
    (summed (first :: next :: later)).toList =
      (quoted first).toList ++ ' ' :: '+' :: ' ' :: (summed (next :: later)).toList := by
  simp [summed_cons_cons]

theorem getLast?_summed : (summed (first :: later)).toList.getLast? = some '"' := by
  induction later generalizing first with
  | nil => rw [summed_singleton, toList_quoted, ← List.cons_append, List.getLast?_concat]
  | cons next later ih =>
    rw [summed_cons_cons, String.toList_append, List.getLast?_append, ih]
    rfl

theorem not_mem_summed {c : Char} (hquote : c ≠ '"') (hblank : c ≠ ' ') (hplus : c ≠ '+')
    (h : ∀ text ∈ first :: later, c ∉ text.toList) : c ∉ (summed (first :: later)).toList := by
  induction later generalizing first with
  | nil =>
    rw [summed_singleton, toList_quoted]
    simp [hquote, h first List.mem_cons_self]
  | cons next later ih =>
    obtain ⟨hfirst, hlater⟩ := List.forall_mem_cons.mp h
    rw [toList_summed_cons_cons, toList_quoted]
    simp [hquote, hblank, hplus, hfirst, ih hlater]

theorem lines_println_summed (h : ∀ text ∈ first :: later, '\n' ∉ text.toList) :
    lines ("println " ++ summed (first :: later)) = ["println " ++ summed (first :: later)] :=
  lines_println (not_mem_summed (by decide) (by decide) (by decide) h) getLast?_summed (by decide)

end Text

/-! ## Scanning -/

namespace Token

/-- A quoted text at the position. -/
def quoted (position : Position) (text : String) : Token :=
  { kind := .string, literal := Text.quoted text, position }

/-- A plus sign at the position. -/
def plus (position : Position) : Token :=
  { kind := .plus, literal := "+", position }

/-- The tokens of a sum of texts at the position. -/
def summed (position : Position) (first : String) : List String → List Token
  | [] => [quoted position first]
  | next :: later =>
    let sign := { position with column := position.column + (Text.quoted first).length + 1 }
    quoted position first :: plus sign ::
      summed { sign with column := sign.column + "+".length + 1 } next later

variable {position : Position} {first : String} {later : List String}

theorem scanned_quoted (h : '"' ∉ first.toList) : (quoted position first).Scanned := by
  have hcomplete : Pattern.quoted.complete (Text.quoted first).toList = true :=
    Pattern.complete_quoted_iff.mpr ⟨first.toList, Text.toList_quoted first, h⟩
  exact ⟨⟨.string, .quoted, 1⟩, by decide, hcomplete, rfl⟩

theorem scanned_plus (position : Position) : (plus position).Scanned := by
  have hcomplete : (Pattern.fixed ['+']).complete "+".toList = true := by decide
  exact ⟨⟨.plus, .fixed ['+'], 2⟩, by decide, hcomplete, rfl⟩

/-- A sum is cut into the quoted texts and the signs, whatever stands in the texts. -/
theorem cuts_summed (h : ∀ text ∈ first :: later, '"' ∉ text.toList) (position : Position) :
    Scan.Cuts position (Text.summed (first :: later)).toList (summed position first later) := by
  -- Every token but the last has a blank behind it.
  have hspaced {token : Token} (htoken : token.Scanned) (text : List Char) :
      Scan.Longest token.literal.toList (token.literal.toList ++ ' ' :: text) :=
    Scan.longest_of_scanned htoken (Text.isBlank_head_space text)
  induction later generalizing first position with
  | nil =>
    rw [Text.summed_singleton]
    exact .single (scanned_quoted (h first List.mem_cons_self))
  | cons next later ih =>
    obtain ⟨hfirst, hlater⟩ := List.forall_mem_cons.mp h
    have hscanned : (quoted position first).Scanned := scanned_quoted hfirst
    let sign : Position :=
      { position with column := position.column + (Text.quoted first).length + 1 }
    have hnext : Scan.Cuts { sign with column := sign.column + "+".length }
        (' ' :: (Text.summed (next :: later)).toList) _ := .blank (by decide) (ih hlater _)
    have hplus : Scan.Cuts sign ("+".toList ++ ' ' :: (Text.summed (next :: later)).toList) _ :=
      .of_longest (scanned_plus sign) (hspaced (scanned_plus sign) _) nofun hnext
    have hbehind : Scan.Cuts
        { position with column := position.column + (Text.quoted first).length }
        (' ' :: '+' :: ' ' :: (Text.summed (next :: later)).toList) _ := .blank (by decide) hplus
    rw [Text.toList_summed_cons_cons]
    exact .of_longest hscanned (hspaced hscanned _) nofun hbehind

end Token

/-! ## Reading -/

namespace StringExpr

variable {first : String} {later : List String}

/-- The sum of texts. -/
def ofTexts (first : String) : List String → StringExpr
  | [] => .single (.literal first)
  | next :: later => .chain (.literal first) (ofTexts next later)

theorem eval_ofTexts (scene : Scene) :
    (ofTexts first later).eval scene = .ok (String.join (first :: later)) := by
  induction later generalizing first with
  | nil => simp [ofTexts, eval, StringOperand.eval]
  | cons next later ih =>
    have hjoin : String.join (first :: next :: later) = first ++ String.join (next :: later) :=
      String.join_cons
    rw [ofTexts, eval, ih, hjoin]
    rfl

end StringExpr

theorem Token.unquoted_quoted (text : String) : Token.unquoted (Text.quoted text) = text := by
  simp [Token.unquoted, Text.toList_quoted]

theorem StringExpr.reader_summed {names : String → Option Arena.Binding} {stop : Position}
    {left : List Token} {first : String} {later : List String} (position : Position)
    (hends : Statement.endsBefore (Token.frontOf stop left).kind = true) :
    (StringExpr.reader names stop (Token.summed position first later ++ left)).Gives
      (.ok (ofTexts first later)) left := by
  have hoperand (position : Position) (text : String) (rest : List Token) :
      (StringOperand.reader names stop (Token.quoted position text :: rest)).Gives
        (.ok (.literal text)) rest := by
    have hread : StringOperand.read ⟨names, stop⟩ (Token.quoted position text) =
        .ok (.literal (Token.unquoted (Text.quoted text))) := rfl
    rw [Token.unquoted_quoted] at hread
    exact StringOperand.reader_gives_ok_iff.mpr ⟨_, rfl, hread⟩
  induction later generalizing first position with
  | nil =>
    have hjoin := (Operator.none_of_endsBefore hends).2.2
    exact (StringExpr.chains_reader names).ended (hoperand position first left) hjoin
  | cons next later ih =>
    exact (StringExpr.chains_reader names).goesOn (hoperand position first _) rfl (ih _)

theorem Expr.readsLine_summed (position : Position) (first : String) (later : List String) :
    Expr.ReadsLine (Token.summed position first later) (.ok (.string (.ofTexts first later))) := by
  intro names stop newline hnewline
  have hkind : Context.kindOf? ⟨names, stop⟩
      (Token.frontOf stop (Token.summed position first later ++ [newline])) =
        .ok (some .string) := by
    cases later <;> rfl
  have hends : Statement.endsBefore (Token.frontOf stop [newline]).kind = true := by
    rw [Token.frontOf_cons, hnewline]
    rfl
  exact ⟨.string, hkind, Expr.reader_of_string hkind (StringExpr.reader_summed position hends)⟩

/-- Text is printed verbatim. Of a sum of quoted texts exactly the characters of the texts are
written, and a line end behind them. -/
theorem interpret_println_texts {σ : Type} {out : Sink σ} {bytes : σ → ByteArray} {sink : σ}
    (hlossless : out.Lossless bytes sink) {texts : List String} (hne : texts ≠ [])
    (h : ∀ text ∈ texts, '"' ∉ text.toList ∧ '\n' ∉ text.toList) :
    (interpret out sink ("println " ++ " + ".intercalate (texts.map Text.quoted))).Prints bytes sink
      (String.join texts ++ "\n") := by
  cases texts with
  | nil => exact absurd rfl hne
  | cons first later =>
    have hquote : ∀ text ∈ first :: later, '"' ∉ text.toList := fun text ht => (h text ht).1
    have hfeed : ∀ text ∈ first :: later, '\n' ∉ text.toList := fun text ht => (h text ht).2
    refine interpret_println (v := .string (String.join (first :: later))) hlossless
      (Text.lines_println_summed hfeed) (Token.cuts_summed hquote _)
      (Expr.readsLine_summed _ first later) ?_
    intro scene
    rw [Expr.eval, StringExpr.eval_ofTexts]
    rfl

/-- Comment signs, braces, operators, blanks and carriage returns between quotes are text, and
so is nothing at all. -/
theorem interpret_println_texts_signs :
    let texts := ["# \x7b ", "", "\té\r", "日本\x7d + "]
    let source := "println \"# \x7b \" + \"\" + \"\té\r\" + \"日本\x7d + \""
    Buffer.sink.Lossless Buffer.bytes Buffer.unlimited ∧ texts ≠ [] ∧
      (∀ text ∈ texts, '"' ∉ text.toList ∧ '\n' ∉ text.toList) ∧
      "println " ++ " + ".intercalate (texts.map Text.quoted) = source ∧
      (interpret Buffer.sink Buffer.unlimited source).Prints Buffer.bytes Buffer.unlimited
        "# \x7b \té\r日本\x7d + \n" := by
  intro texts source
  have hne : texts ≠ [] := List.cons_ne_nil _ _
  have htexts : ∀ text ∈ texts, '"' ∉ text.toList ∧ '\n' ∉ text.toList := by decide
  have hsource : "println " ++ " + ".intercalate (texts.map Text.quoted) = source := by decide
  have htext : String.join texts ++ "\n" = "# \x7b \té\r日本\x7d + \n" := by decide
  have hprints := interpret_println_texts Buffer.lossless_unlimited hne htexts
  rw [hsource, htext] at hprints
  exact ⟨Buffer.lossless_unlimited, hne, htexts, hsource, hprints⟩

end LineScript
