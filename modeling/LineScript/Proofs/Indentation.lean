import LineScript.Program.Outline
import LineScript.Proofs.LineFeeds

/-!
# Indented outlines

Every node writes its own lines behind an indentation that it is given, and makes out of it the
indentations that it gives to its parts. All nodes use what they are given in the same way: their
lines are always the same, each behind the indentation (`Outline.Uniform`). One rule for each way
in which a node puts lines together shows this for all trees.

The lines hold names, strings and values, so whether an outline can be cut into its lines again
depends on all of these: none may break a line. For a program that was read this holds before and
after every run, and therefore an outline behind an indentation is the plain outline with each of
its lines moved behind it (`Program.outline_indented`).
-/

namespace LineScript

/-! ## Cutting a text into lines -/

namespace Text

variable {lines : List String}

/-- What stands between the line feeds of a text, with what comes before the first and behind
the last of them. -/
def splitLines (text : String) : List String :=
  (text.toList.splitOn '\n').map String.ofList

theorem splitLines_intercalate (h : ∀ line ∈ lines, Unbroken line) (hne : lines ≠ []) :
    splitLines ("\n".intercalate lines) = lines := by
  have hsplit : List.splitOn '\n' (['\n'].intercalate (lines.map String.toList)) =
      lines.map String.toList := by
    refine List.splitOn_intercalate '\n' ?_ (by simpa using hne)
    intro chars hchars
    obtain ⟨line, hline, rfl⟩ := List.mem_map.mp hchars
    exact h line hline
  have hchars : ("\n".intercalate lines).toList = ['\n'].intercalate (lines.map String.toList) :=
    String.toList_intercalate
  rw [splitLines, hchars, hsplit, List.map_map]
  simp

end Text

/-! ## The lines of an outline -/

theorem Symbol.unbroken_pad {text : String} (h : Text.Unbroken text) (width : Nat) :
    Text.Unbroken (Symbol.pad width text) := by
  refine Text.unbroken_append.mpr ⟨h, ?_⟩
  rw [Text.unbroken_ofList]
  simp [List.mem_replicate]

theorem Symbol.Unbroken.describe {s : Symbol} (h : s.Unbroken) : Text.Unbroken s.describe := by
  have hkind : Text.Unbroken s.kind.name := by cases s.kind <;> decide
  have hline : Text.Unbroken ("Symbol: " ++ pad 20 s.name ++ "  " ++ pad 12 s.kind.name) := by
    simp only [Text.unbroken_append]
    exact ⟨⟨⟨by decide, unbroken_pad h.name 20⟩, by decide⟩, unbroken_pad hkind 12⟩
  unfold Symbol.describe
  simp only
  split
  · rw [Text.unbroken_ofList]
    exact fun hmem => hline ((Text.trimEnd_sublist _).subset hmem)
  · refine Text.unbroken_append.mpr ⟨Text.unbroken_append.mpr ⟨?_, h.value⟩, by decide⟩
    exact Text.unbroken_append.mpr ⟨hline, by decide⟩

/-- The outline has lines that are not broken, and writes them behind every indentation. -/
def Outline.Uniform (outline : String → Outline) : Prop :=
  ∃ lines : List String, lines ≠ [] ∧ (∀ line ∈ lines, Text.Unbroken line) ∧
    ∀ indent, outline indent = .ok ("\n".intercalate (lines.map (indent ++ ·)))

namespace Outline.Uniform

variable {outline later : String → Outline} {text sign : String}

theorem congr (h : Uniform outline) (heq : ∀ indent, later indent = outline indent) :
    Uniform later :=
  (funext heq : later = outline) ▸ h

theorem line (h : Text.Unbroken text) : Uniform fun indent => .ok (indent ++ text) :=
  ⟨[text], List.cons_ne_nil _ _, by simpa using h, fun indent => by simp⟩

/-- The lines of a part hold what their node adds to the indentation. -/
theorem deeper (h : Uniform outline) : Uniform fun indent => outline (deeper indent) := by
  obtain ⟨lines, hne, hlines, houtline⟩ := h
  refine ⟨lines.map ("  " ++ ·), by simpa using hne, ?_, fun indent => ?_⟩
  · intro line hline
    obtain ⟨text, htext, rfl⟩ := List.mem_map.mp hline
    exact Text.unbroken_append.mpr ⟨by decide, hlines text htext⟩
  · have hmoved : lines.map (LineScript.deeper indent ++ ·) =
        (lines.map ("  " ++ ·)).map (indent ++ ·) := by
      rw [List.map_map]
      exact List.map_congr_left fun line _ => String.append_assoc ..
    exact (houtline _).trans (by rw [hmoved])

/-- Lines below lines. -/
theorem below (h : Uniform outline) (hlater : Uniform later) :
    Uniform fun indent => do return (← outline indent) ++ "\n" ++ (← later indent) := by
  obtain ⟨lines, hne, hlines, houtline⟩ := h
  obtain ⟨more, hmore, hunbroken, hlater⟩ := hlater
  refine ⟨lines ++ more, by simp [hne], List.forall_mem_append.mpr ⟨hlines, hunbroken⟩, ?_⟩
  intro indent
  dsimp only
  rw [houtline, hlater, List.map_append,
    String.intercalate_append_of_ne_nil (by simpa using hne) (by simpa using hmore)]
  rfl

/-- A part below the heading of its node. -/
theorem heading (h : Uniform outline) (htext : Text.Unbroken text) :
    Uniform fun indent => do
      let child ← outline (LineScript.deeper indent)
      return indent ++ text ++ "\n" ++ child :=
  (line htext).below h.deeper

/-- Two parts below the heading of their node, with a sign between them. -/
theorem chain (h : Uniform outline) (hlater : Uniform later) (htext : Text.Unbroken text)
    (hsign : Text.Unbroken sign) :
    Uniform fun indent => do
      let inner := LineScript.deeper indent
      let first ← outline inner
      let rest ← later inner
      return indent ++ text ++ "\n" ++ first ++ "\n" ++ (inner ++ sign) ++ "\n" ++ rest := by
  refine (((h.heading htext).below (line hsign).deeper).below hlater.deeper).congr fun indent => ?_
  dsimp only
  cases outline (LineScript.deeper indent) <;> rfl

end Outline.Uniform

section trees

variable {a : Arena}

theorem Operator.unbroken_sign (op : Operator) : Text.Unbroken op.sign := by
  cases op <;> decide

mutual

theorem NumExpr.uniform_outline (ha : a.Unbroken) : ∀ e : NumExpr,
    (∀ ref ∈ e.references, ∃ s, a.symbol ref.symbol = .ok s) → Outline.Uniform (e.outline a ·)
  | .single term, h => by
    simp only [NumExpr.outline]
    exact (Term.uniform_outline ha term h).heading (by decide)
  | .chain term op rest, h => by
    have hterm := Term.uniform_outline ha term fun ref href => h ref (List.mem_append_left _ href)
    have hrest := NumExpr.uniform_outline ha rest
      fun ref href => h ref (List.mem_append_right _ href)
    simp only [NumExpr.outline]
    exact hterm.chain hrest (by decide) op.unbroken_sign

theorem Term.uniform_outline (ha : a.Unbroken) : ∀ e : Term,
    (∀ ref ∈ e.references, ∃ s, a.symbol ref.symbol = .ok s) → Outline.Uniform (e.outline a ·)
  | .single factor, h => by
    simp only [Term.outline]
    exact (Factor.uniform_outline ha factor h).heading (by decide)
  | .chain factor op rest, h => by
    have hfactor := Factor.uniform_outline ha factor
      fun ref href => h ref (List.mem_append_left _ href)
    have hrest := Term.uniform_outline ha rest fun ref href => h ref (List.mem_append_right _ href)
    simp only [Term.outline]
    exact hfactor.chain hrest (by decide) op.unbroken_sign

theorem Factor.uniform_outline (ha : a.Unbroken) : ∀ e : Factor,
    (∀ ref ∈ e.references, ∃ s, a.symbol ref.symbol = .ok s) → Outline.Uniform (e.outline a ·)
  | .literal n, _ => by
    have hnumber : Text.Unbroken s!"Signed number: '{n.text}'" := by
      refine Text.unbroken_append.mpr ⟨Text.unbroken_append.mpr ⟨by decide, ?_⟩, by decide⟩
      exact n.unbroken_text
    simp only [Factor.outline]
    exact (Outline.Uniform.line hnumber).heading (by decide)
  | .paren inner, h => by
    simp only [Factor.outline]
    exact (NumExpr.uniform_outline ha inner h).heading (by decide)
  | .negate inner, h => by
    have hsign : Outline.Uniform fun indent => .ok (indent ++ "-") := .line (by decide)
    simp only [Factor.outline]
    exact (hsign.heading (by decide)).below (Factor.uniform_outline ha inner h).deeper
  | .reference ref, h => by
    obtain ⟨s, hs⟩ := h ref (List.mem_singleton_self ref)
    simp only [Factor.outline, hs]
    exact (Outline.Uniform.line (ha hs).describe).heading (by decide)

end

theorem StringOperand.uniform_outline (ha : a.Unbroken) {operand : StringOperand}
    (h : ∀ ref ∈ operand.references, ∃ s, a.symbol ref.symbol = .ok s)
    (hliterals : ∀ text ∈ operand.literals, Text.Unbroken text) :
    Outline.Uniform (operand.outline a ·) := by
  cases operand with
  | literal text =>
    refine .line (Text.unbroken_append.mpr ⟨Text.unbroken_append.mpr ⟨by decide, ?_⟩, by decide⟩)
    exact hliterals text (List.mem_singleton_self text)
  | reference ref =>
    obtain ⟨s, hs⟩ := h ref (List.mem_singleton_self ref)
    simp only [StringOperand.outline, hs]
    exact .line (ha hs).describe

theorem StringExpr.uniform_outline (ha : a.Unbroken) {e : StringExpr}
    (h : ∀ ref ∈ e.references, ∃ s, a.symbol ref.symbol = .ok s)
    (hliterals : ∀ text ∈ e.literals, Text.Unbroken text) : Outline.Uniform (e.outline a ·) := by
  induction e with
  | single operand => exact (StringOperand.uniform_outline ha h hliterals).heading (by decide)
  | chain operand rest ih =>
    have hoperand := StringOperand.uniform_outline ha
      (fun ref href => h ref (List.mem_append_left _ href))
      fun text htext => hliterals text (List.mem_append_left _ htext)
    have hrest := ih (fun ref href => h ref (List.mem_append_right _ href))
      fun text htext => hliterals text (List.mem_append_right _ htext)
    exact hoperand.chain hrest (by decide) (by decide)

theorem Expr.uniform_outline (ha : a.Unbroken) {table : TableId} {e : Expr}
    (h : e.Scoped a table) (hliterals : ∀ text ∈ e.literals, Text.Unbroken text) :
    Outline.Uniform (e.outline a ·) := by
  have hsymbols : ∀ ref ∈ e.references, ∃ s, a.symbol ref.symbol = .ok s := by
    intro ref href
    obtain ⟨s, hs, -⟩ := (h ref href).1
    exact ⟨s, hs⟩
  cases e with
  | number e => exact NumExpr.uniform_outline ha e hsymbols
  | string e => exact StringExpr.uniform_outline ha hsymbols hliterals

namespace Statement

theorem uniform_outlinePrint (ha : a.Unbroken) {heading : String} {table : TableId}
    {e : Option Expr} (hheading : Text.Unbroken heading) (h : ∀ inner ∈ e, inner.Scoped a table)
    (hliterals : ∀ text ∈ e.elim [] Expr.literals, Text.Unbroken text) :
    Outline.Uniform (outlinePrint a · heading e) := by
  cases e with
  | none => exact .line hheading
  | some e => exact (Expr.uniform_outline ha (h e rfl) hliterals).heading hheading

theorem uniform_outlineStore (ha : a.Unbroken) {heading sign : String} {target : SymbolId}
    {table : TableId} {e : Option Expr} (hheading : Text.Unbroken heading)
    (hsign : Text.Unbroken sign) (htarget : ∃ s, a.symbol target = .ok s)
    (h : ∀ inner ∈ e, inner.Scoped a table)
    (hliterals : ∀ text ∈ e.elim [] Expr.literals, Text.Unbroken text) :
    Outline.Uniform (outlineStore a · heading target sign e) := by
  obtain ⟨s, hs⟩ := htarget
  have hline := Outline.Uniform.line (Text.unbroken_append.mpr ⟨hheading, (ha hs).describe⟩)
  simp only [outlineStore, hs]
  cases e with
  | none => exact hline
  | some e =>
    have hvalue := Expr.uniform_outline ha (h e rfl) hliterals
    exact (hline.below (Outline.Uniform.line hsign).deeper).below hvalue.deeper

/-- Statements write the same lines below a text, at every indentation that a block makes out of
its own. -/
def UniformBelow (a : Arena) (body : List Statement) : Prop :=
  ∀ ⦃inner above : String → String⦄,
    (∀ ⦃outline : String → Outline⦄, Outline.Uniform outline →
      Outline.Uniform fun indent => outline (inner indent)) →
    Outline.Uniform (fun indent => .ok (above indent)) →
    Outline.Uniform fun indent => outlineAll a (inner indent) (above indent) body

theorem UniformBelow.block {body : List Statement} (h : UniformBelow a body)
    (position : Position) (table : TableId) :
    Outline.Uniform ((Statement.block position table body).outline a ·) := by
  have hstatements : Outline.Uniform fun indent => .ok (indent ++ "Statements") :=
    .line (by decide)
  simp only [outline]
  exact h (fun _ hinner => hinner.deeper.deeper) (hstatements.heading (by decide))

mutual

/-- A statement that fits the arena writes the same lines behind every indentation. -/
theorem uniform_outline (ha : a.Unbroken) : ∀ (statement : Statement) (table : TableId),
    statement.Fits a table → (∀ text ∈ statement.literals, Text.Unbroken text) →
    Outline.Uniform (statement.outline a ·)
  | .null, _, _, _ => by
    simp only [outline]
    exact .line (by decide)
  | .declare _ _ target _ initial, _, ⟨_, ⟨s, hs, _⟩, hinitial⟩, hliterals => by
    simp only [outline]
    exact uniform_outlineStore ha (by decide) (by decide) ⟨s, hs⟩
      (fun e he => (hinitial e he).2) hliterals
  | .assign _ _ target compound e, _, ⟨⟨⟨s, hs, _⟩, _⟩, hscoped⟩, hliterals => by
    have hsign : Text.Unbroken (if compound then "+=" else "=") := by cases compound <;> decide
    simp only [outline]
    exact uniform_outlineStore ha (by decide) hsign ⟨s, hs⟩ (fun _ he => Option.some.inj he ▸ hscoped)
      hliterals
  | .print _ newline payload, _, h, hliterals => by
    have hheading : Text.Unbroken (if newline then "PrintlnStatement" else "PrintStatement") := by
      cases newline <;> decide
    simp only [outline]
    exact uniform_outlinePrint ha hheading h hliterals
  | .block position inner body, _, ⟨_, hbody⟩, hliterals => by
    rw [literals] at hliterals
    exact (uniform_outlineAll ha body inner hbody hliterals).block position inner

theorem uniform_outlineAll (ha : a.Unbroken) : ∀ (body : List Statement) (table : TableId),
    AllFit a table body → (∀ text ∈ literalsAll body, Text.Unbroken text) → UniformBelow a body
  | [], _, _, _ => by
    intro inner above _ habove
    simp only [outlineAll]
    exact habove
  | statement :: rest, table, ⟨hfirst, hrest⟩, hliterals => by
    intro inner above hinner habove
    rw [literalsAll] at hliterals
    have hstatement := hinner (uniform_outline ha statement table hfirst
      fun text htext => hliterals text (List.mem_append_left _ htext))
    have hnext := habove.below hstatement
    -- The rest stands below what ends with the lines of the statement.
    obtain ⟨lines, -, -, hlines⟩ := hstatement
    dsimp only at hlines
    simp only [hlines] at hnext
    have hlater := uniform_outlineAll ha rest table hrest
      (fun text htext => hliterals text (List.mem_append_right _ htext)) hinner hnext
    refine hlater.congr fun indent => ?_
    rw [outlineAll, hlines]
    rfl

end

end Statement

end trees

/-! ## The outline of a program -/

namespace Program

variable {p : Program}

theorem uniform_outline (h : p.Sound) (hunbroken : p.Unbroken) : Outline.Uniform p.outline := by
  have hbody := Statement.uniform_outlineAll hunbroken.arena p.root.body p.root.table h.body
    hunbroken.literals
  exact (hbody.block p.root.position p.root.table).heading (by decide)

/-- Programs that were read and run any number of times. -/
theorem uniform_outline_of_executed {source : String}
    (h : (parse (Text.lines source)).program.Executed p) : Outline.Uniform p.outline :=
  uniform_outline (Executor.sound_of_executed h (sound_parse _))
    (Executor.unbroken_of_executed h
      (unbroken_parse fun _ htext => Text.unbroken_of_mem_lines htext))

/-- The outline of a program that was read, and then run any number of times, with a text in
front of its lines: these are the lines of the plain outline, each behind the text. If the text
does not break lines itself, they are the lines of the outline, and all of them begin with it. -/
theorem outline_indented {source : String} (h : (parse (Text.lines source)).program.Executed p)
    (indent : String) :
    ∃ plain indented, p.outline "" = .ok plain ∧ p.outline indent = .ok indented ∧
      indented = "\n".intercalate ((Text.splitLines plain).map (indent ++ ·)) ∧
      (Text.Unbroken indent →
        Text.splitLines indented = (Text.splitLines plain).map (indent ++ ·) ∧
        ∀ line ∈ Text.splitLines indented, indent.toList <+: line.toList) := by
  obtain ⟨lines, hne, hlines, houtline⟩ := uniform_outline_of_executed h
  have hsplit {indent : String} (hindent : Text.Unbroken indent) :
      Text.splitLines ("\n".intercalate (lines.map (indent ++ ·))) =
        lines.map (indent ++ ·) := by
    refine Text.splitLines_intercalate ?_ (by simpa using hne)
    intro text htext
    obtain ⟨line, hline, rfl⟩ := List.mem_map.mp htext
    exact Text.unbroken_append.mpr ⟨hindent, hlines line hline⟩
  have hplain : Text.splitLines ("\n".intercalate (lines.map ("" ++ ·))) = lines := by
    simpa using hsplit (show Text.Unbroken "" by decide)
  refine ⟨_, _, houtline "", houtline indent, ?_, fun hindent => ?_⟩
  · rw [hplain]
  · rw [hplain, hsplit hindent]
    refine ⟨rfl, fun line hline => ?_⟩
    obtain ⟨text, -, rfl⟩ := List.mem_map.mp hline
    rw [String.toList_append]
    exact List.prefix_append _ _

/-- A string that grows with every run, run twice, and an outline behind bars. -/
theorem outline_indented_twice :
    let source := "var s string = \"a\"\n\x7b\ns += \"b\" + s\nprintln -1\n\x7d"
    let program := (parse (Text.lines source)).program
    let first := Executor.fresh.execute Buffer.sink program Buffer.unlimited
    let second := first.executor.execute Buffer.sink first.program first.sink
    second.program.arena.symbols[0]? = some ⟨"s", .string, .string "aba"⟩ ∧
      program.Executed second.program ∧ Text.Unbroken "| " ∧
      ∃ plain indented, second.program.outline "" = .ok plain ∧
        second.program.outline "| " = .ok indented ∧
        indented = "\n".intercalate ((Text.splitLines plain).map ("| " ++ ·)) ∧
        Text.splitLines indented = (Text.splitLines plain).map ("| " ++ ·) ∧
        ∀ line ∈ Text.splitLines indented, "| ".toList <+: line.toList := by
  intro source program first second
  have hexecuted : program.Executed second.program := .again (.again .start ..) ..
  have hbars : Text.Unbroken "| " := by decide
  obtain ⟨plain, indented, hplain, hindented, hjoined, hlines⟩ := outline_indented hexecuted "| "
  exact ⟨by decide +kernel, hexecuted, hbars, plain, indented, hplain, hindented, hjoined,
    hlines hbars⟩

end Program

end LineScript
