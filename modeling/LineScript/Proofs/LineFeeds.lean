import LineScript.Proofs.Layout
import LineScript.Proofs.Reading.Sources
import LineScript.Proofs.Stores

/-!
# Texts on one line

The lines of a source text hold no line feed, and neither do the tokens that are cut out of
them. What is read from tokens takes over their texts, numbers are written without line feeds,
and an expression puts strings together out of the strings it is given. So no name, no string
and no value of a program that was read ever breaks a line, however often the program is run
(`Executor.unbroken_of_executed`).
-/

namespace LineScript

/-! ## Source lines -/

namespace Text

variable {s t : String} {chars piece : List Char}

/-- The text stands on one line. -/
def Unbroken (text : String) : Prop :=
  '\n' ∉ text.toList

instance (text : String) : Decidable (Unbroken text) :=
  inferInstanceAs (Decidable ('\n' ∉ text.toList))

theorem unbroken_append : Unbroken (s ++ t) ↔ Unbroken s ∧ Unbroken t := by
  rw [Unbroken, String.toList_append, List.mem_append, not_or]
  rfl

theorem unbroken_ofList : Unbroken (String.ofList chars) ↔ '\n' ∉ chars := by
  rw [Unbroken, String.toList_ofList]

theorem trimEnd_sublist (chars : List Char) : (trimEnd chars).Sublist chars := by
  have hdrop := (List.dropWhile_sublist isBlank (l := chars.reverse)).reverse
  rwa [List.reverse_reverse] at hdrop

theorem trim_sublist (chars : List Char) : (trim chars).Sublist chars :=
  (trimEnd_sublist _).trans (List.dropWhile_sublist isBlank)

theorem not_mem_of_mem_pieces (h : piece ∈ pieces chars) : '\n' ∉ piece := by
  induction chars generalizing piece with
  | nil => cases h
  | cons c rest ih =>
    rw [pieces] at h
    split at h
    case isTrue =>
      obtain rfl | hlater := List.mem_cons.mp h
      · exact List.not_mem_nil
      · exact ih hlater
    case isFalse hc =>
      split at h
      case h_1 =>
        rw [List.mem_singleton.mp h, List.mem_singleton]
        exact Ne.symm hc
      case h_2 first later hpieces =>
        rw [hpieces] at ih
        obtain rfl | hlater := List.mem_cons.mp h
        · rw [List.mem_cons, not_or]
          exact ⟨Ne.symm hc, ih List.mem_cons_self⟩
        · exact ih (List.mem_cons_of_mem _ hlater)

theorem unbroken_of_mem_lines {line source : String} (h : line ∈ lines source) :
    Unbroken line := by
  obtain ⟨piece, hpiece, rfl⟩ := List.mem_map.mp h
  rw [unbroken_ofList]
  exact fun hmem => not_mem_of_mem_pieces hpiece ((trim_sublist piece).subset hmem)

end Text

/-! ## Numbers -/

theorem Decimal.not_mem_toDigits (n : Nat) : '\n' ∉ Nat.toDigits 10 n := by
  intro h
  have hdigit := Nat.isDigit_of_mem_toDigits (by decide) (by decide) h
  exact absurd hdigit (by decide)

theorem Decimal.not_mem_positional (d : Decimal.Scaled) : '\n' ∉ d.positional := by
  unfold Decimal.Scaled.positional
  split
  · simp [Decimal.not_mem_toDigits, List.mem_replicate]
  · generalize Decimal.dropZeros (-d.exponent).toNat d.digits = rest
    obtain ⟨places, digits⟩ := rest
    simp only [Decimal.pointed]
    split
    · exact Decimal.not_mem_toDigits digits
    · -- Both sides of the point are parts of the digits with zeros in front.
      generalize hpadded : List.replicate (places + 1 - (Nat.toDigits 10 digits).length) '0' ++
        Nat.toDigits 10 digits = padded
      have hfree : '\n' ∉ padded := by
        rw [← hpadded]
        simp [Decimal.not_mem_toDigits, List.mem_replicate]
      intro h
      obtain hwhole | hpoint := List.mem_append.mp h
      · exact hfree (List.mem_of_mem_take hwhole)
      · obtain hpoint | hfraction := List.mem_cons.mp hpoint
        · cases hpoint
        · exact hfree (List.mem_of_mem_drop hfraction)

theorem Number.unbroken_text (n : Number) : Text.Unbroken n.text := by
  cases n with
  | integer n =>
    have hnat (k : Nat) : Text.Unbroken (toString k) := by
      rw [Nat.toString_eq_ofList_toDigits, Text.unbroken_ofList]
      exact Decimal.not_mem_toDigits k
    change Text.Unbroken (toString n.toInt)
    cases n.toInt with
    | ofNat k => exact hnat k
    | negSucc k => exact Text.unbroken_append.mpr ⟨by decide, hnat (k + 1)⟩
  | float x =>
    change Text.Unbroken (Number.floatText x)
    unfold Number.floatText
    split
    · decide
    · generalize x.toBits.toNat = bits
      have hsign : Text.Unbroken (if bits % 0x8000000000000000 = bits then "" else "-") := by
        split <;> decide
      simp only
      split
      · exact Text.unbroken_append.mpr ⟨hsign, by decide⟩
      · split
        · exact Text.unbroken_append.mpr ⟨hsign, by decide⟩
        · refine Text.unbroken_append.mpr ⟨hsign, ?_⟩
          rw [Text.unbroken_ofList]
          exact Decimal.not_mem_positional _

/-! ## Tokens -/

section tokens

variable {text : List Char} {tokens : List Token} {token : Token}

/-- Tokens are cut out of their line. -/
theorem Scan.Cuts.unbroken {position : Position} (h : Cuts position text tokens)
    (hfree : '\n' ∉ text) : ∀ token ∈ tokens, Text.Unbroken token.literal := by
  have hcut {text : List Char} {m : Munch} (hm : munch text = .ok m) (hfree : '\n' ∉ text) :
      '\n' ∉ m.literal ∧ '\n' ∉ m.rest := by
    rwa [← append_of_munch hm, List.mem_append, not_or] at hfree
  induction h with
  | done => simp
  | blank _ _ ih => exact ih fun hmem => hfree (List.mem_cons_of_mem _ hmem)
  | comment _ hmunch _ =>
    intro token htoken
    rw [List.mem_singleton.mp htoken]
    exact Text.unbroken_ofList.mpr (hcut hmunch hfree).1
  | token _ hmunch _ _ ih =>
    obtain ⟨hliteral, hrest⟩ := hcut hmunch hfree
    exact List.forall_mem_cons.mpr ⟨Text.unbroken_ofList.mpr hliteral, ih hrest⟩

/-- Only the line ends between lines hold line feeds. -/
theorem Cursor.unbroken_tokensFrom {line : Nat} {lines : List String}
    (h : ∀ text ∈ lines, Text.Unbroken text) (htoken : token ∈ tokensFrom line lines)
    (hkind : token.kind ≠ .newline) : Text.Unbroken token.literal := by
  induction lines generalizing line with
  | nil => cases htoken
  | cons text lines ih =>
    rw [tokensFrom_cons] at htoken
    obtain htoken | hlater := List.mem_append.mp htoken
    · cases hline : Token.ofLine line text with
      | error e =>
        rw [lineTokens_of_error hline, List.mem_singleton] at htoken
        exact absurd (congrArg Token.kind htoken) hkind
      | ok tokens =>
        rw [lineTokens_of_ok hline, List.mem_append, List.mem_singleton] at htoken
        obtain htoken | rfl := htoken
        · exact (Scan.cuts_of_scan hline).unbroken (h text List.mem_cons_self) token htoken
        · exact absurd rfl hkind
    · exact ih (fun text htext => h text (List.mem_cons_of_mem _ htext)) hlater

theorem Token.unbroken_unquoted {literal : String} (h : Text.Unbroken literal) :
    Text.Unbroken (Token.unquoted literal) := by
  unfold Token.unquoted
  split
  case h_1 rest hchars =>
    split
    · rw [Text.unbroken_ofList]
      intro hmem
      refine h ?_
      rw [hchars]
      exact List.mem_cons_of_mem _ (List.dropLast_subset _ hmem)
    · exact h
  case h_2 => exact h

end tokens

/-! ## Values -/

/-- Neither the name nor the value breaks a line. -/
structure Symbol.Unbroken (s : Symbol) : Prop where
  name : Text.Unbroken s.name
  value : Text.Unbroken s.value.text

theorem Kind.unbroken_initial (kind : Kind) : Text.Unbroken kind.initial.text := by
  cases kind <;> decide

def Arena.Unbroken (a : Arena) : Prop :=
  ∀ ⦃target s⦄, a.symbol target = .ok s → s.Unbroken

theorem Arena.Unbroken.stored {a : Arena} {target : SymbolId} {s : Symbol} {value : Value}
    (h : a.Unbroken) (hs : a.symbol target = .ok s) (hvalue : Text.Unbroken value.text) :
    (a.stored target value).Unbroken := by
  intro other r hr
  by_cases hother : other = target
  · subst hother
    rw [symbol_stored_self hs] at hr
    cases hr
    exact ⟨(h hs).name, hvalue⟩
  · rw [symbol_stored_of_ne hother] at hr
    exact h hr

section eval

variable {scene : Scene} {text : String}

theorem Reference.unbroken_readString {ref : Reference} (ha : scene.arena.Unbroken)
    (h : ref.readString scene = .ok text) : Text.Unbroken text := by
  obtain ⟨value, hread, hstring⟩ := exists_of_bind h
  obtain ⟨visible, -, hread⟩ := exists_of_bind hread
  cases visible with
  | false => cases hread
  | true =>
    obtain ⟨s, hs, hvalue⟩ := exists_of_bind hread
    cases hvalue
    cases hsymbol : scene.arena.symbol ref.symbol with
    | error f =>
      rw [hsymbol] at hs
      cases hs
    | ok r =>
      rw [hsymbol] at hs
      cases hs
      have hfree := (ha hsymbol).value
      cases hstored : s.value with
      | number n =>
        rw [hstored] at hstring
        cases hstring
      | string stored =>
        rw [hstored] at hstring hfree
        cases hstring
        exact hfree

theorem StringOperand.unbroken_eval {operand : StringOperand} (ha : scene.arena.Unbroken)
    (hliterals : ∀ text ∈ operand.literals, Text.Unbroken text)
    (h : operand.eval scene = .ok text) : Text.Unbroken text := by
  cases operand with
  | literal written =>
    cases h
    exact hliterals text (List.mem_singleton_self text)
  | reference ref => exact Reference.unbroken_readString ha h

theorem StringExpr.unbroken_eval {e : StringExpr} (ha : scene.arena.Unbroken)
    (hliterals : ∀ text ∈ e.literals, Text.Unbroken text) (h : e.eval scene = .ok text) :
    Text.Unbroken text := by
  induction e generalizing text with
  | single operand => exact StringOperand.unbroken_eval ha hliterals h
  | chain operand rest ih =>
    obtain ⟨first, hfirst, h⟩ := exists_of_bind h
    obtain ⟨later, hlater, h⟩ := exists_of_bind h
    cases h
    refine Text.unbroken_append.mpr ⟨StringOperand.unbroken_eval ha ?_ hfirst, ih ?_ hlater⟩
    · exact fun text htext => hliterals text (List.mem_append_left _ htext)
    · exact fun text htext => hliterals text (List.mem_append_right _ htext)

theorem Expr.unbroken_eval {e : Expr} {value : Value} (ha : scene.arena.Unbroken)
    (hliterals : ∀ text ∈ e.literals, Text.Unbroken text) (h : e.eval scene = .ok value) :
    Text.Unbroken value.text := by
  cases e with
  | number e =>
    obtain ⟨n, -, hvalue⟩ := exists_of_bind h
    cases hvalue
    exact n.unbroken_text
  | string e =>
    obtain ⟨text, heval, hvalue⟩ := exists_of_bind h
    cases hvalue
    exact StringExpr.unbroken_eval ha hliterals heval

end eval

/-! ## Runs -/

section run

variable {σ : Type} {out : Sink σ} {s t : State σ} {table : TableId} {value : Value}

namespace State

theorem unbroken_declared {kind : Kind} {initial : Option Expr} (ha : s.arena.Unbroken)
    (hliterals : ∀ text ∈ initial.elim [] Expr.literals, Text.Unbroken text)
    (h : s.declared table kind initial = .ok value) : Text.Unbroken value.text := by
  cases initial with
  | none =>
    cases h
    exact kind.unbroken_initial
  | some e => exact Expr.unbroken_eval ha hliterals h

theorem unbroken_combine {old new : Value} (hold : Text.Unbroken old.text)
    (hnew : Text.Unbroken new.text) (h : s.combine table old new = .ok value) :
    Text.Unbroken value.text := by
  cases old with
  | number a =>
    cases new with
    | number b =>
      obtain ⟨n, -, hvalue⟩ := exists_of_bind h
      cases hvalue
      exact n.unbroken_text
    | string b =>
      cases h
      exact hnew
  | string a =>
    cases new with
    | number b =>
      cases h
      exact hnew
    | string b =>
      cases h
      exact Text.unbroken_append.mpr ⟨hold, hnew⟩

theorem unbroken_assigned {old : Value} {compound : Bool} {e : Expr} (ha : s.arena.Unbroken)
    (hold : Text.Unbroken old.text) (hliterals : ∀ text ∈ e.literals, Text.Unbroken text)
    (h : s.assigned table old compound e = .ok value) : Text.Unbroken value.text := by
  obtain ⟨new, heval, hstored⟩ := exists_of_bind h
  have hnew := Expr.unbroken_eval ha hliterals heval
  cases compound with
  | false =>
    cases hstored
    exact hnew
  | true => exact unbroken_combine hold hnew hstored

end State

namespace Statement

theorem unbroken_deed {statement : Statement} {a : Arena} {d : Deed} (ha : a.Unbroken)
    (hliterals : ∀ text ∈ statement.literals, Text.Unbroken text)
    (h : statement.deed a table = .ok d) : d.arena.Unbroken := by
  cases statement with
  | null =>
    cases h
    exact ha
  | block =>
    cases h
    exact ha
  | print =>
    rw [arena_of_deed_print h]
    exact ha
  | declare position name target kind initial =>
    rw [deed] at h
    cases hwork : State.declare { arena := a, sink := (), position } table name target kind
      initial with
    | error halt =>
      rw [hwork] at h
      cases h
    | ok t =>
      rw [hwork] at h
      cases h
      obtain ⟨value, hvalue, hstore⟩ := State.exists_of_declare hwork
      obtain ⟨r, hr, -, -, rfl⟩ := State.exists_of_store hstore
      exact ha.stored hr (State.unbroken_declared ha hliterals hvalue)
  | assign position name target compound e =>
    rw [deed] at h
    cases hwork : State.assign { arena := a, sink := (), position } table name target compound
      e with
    | error halt =>
      rw [hwork] at h
      cases h
    | ok t =>
      rw [hwork] at h
      cases h
      obtain ⟨r, value, hr, hvalue, hstore⟩ := State.exists_of_assign hwork
      obtain ⟨-, -, -, -, rfl⟩ := State.exists_of_store hstore
      exact ha.stored hr (State.unbroken_assigned ha (ha hr).value hliterals hvalue)

theorem unbroken_run_leaf {statement : Statement} {position : Position}
    (hleaf : statement.leaf? = some position) (ha : s.arena.Unbroken)
    (hliterals : ∀ text ∈ statement.literals, Text.Unbroken text) :
    (statement.run out table s).state.arena.Unbroken := by
  obtain hsame | ⟨d, hdeed, harena⟩ := arena_run_leaf hleaf s
  · rw [hsame]
    exact ha
  · rw [harena]
    exact unbroken_deed ha hliterals hdeed

mutual

/-- A statement stores no text that breaks a line, if it is given none. -/
theorem unbroken_run (out : Sink σ) : ∀ (statement : Statement) (table : TableId) (s : State σ),
    s.arena.Unbroken → (∀ text ∈ statement.literals, Text.Unbroken text) →
    (statement.run out table s).state.arena.Unbroken
  | .null, _, _, ha, _ => ha
  | .declare .., _, _, ha, hliterals => unbroken_run_leaf rfl ha hliterals
  | .assign .., _, _, ha, hliterals => unbroken_run_leaf rfl ha hliterals
  | .print .., _, _, ha, hliterals => unbroken_run_leaf rfl ha hliterals
  | .block position inner body, table, s, ha, hliterals => by
    rw [literals] at hliterals
    rw [arena_run_block]
    split
    · exact unbroken_runAll out body inner { s with position } ha hliterals
    · exact ha

theorem unbroken_runAll (out : Sink σ) : ∀ (body : List Statement) (table : TableId)
    (s : State σ), s.arena.Unbroken → (∀ text ∈ literalsAll body, Text.Unbroken text) →
    (runAll out table s body).state.arena.Unbroken
  | [], _, _, ha, _ => by
    rw [runAll]
    exact ha
  | statement :: rest, table, s, ha, hliterals => by
    rw [literalsAll] at hliterals
    have hfirst := unbroken_run out statement table s ha
      fun text htext => hliterals text (List.mem_append_left _ htext)
    obtain hgoes | hstops := arena_runAll_cons rest s
    · rw [hgoes]
      exact unbroken_runAll out rest table _ hfirst
        fun text htext => hliterals text (List.mem_append_right _ htext)
    · rw [hstops]
      exact hfirst

end

end Statement

end run

/-! ## Programs -/

namespace Program

/-- No text of the program breaks a line: no string of its tree, no name and no value. -/
structure Unbroken (p : Program) : Prop where
  literals : ∀ text ∈ Statement.literalsAll p.root.body, Text.Unbroken text
  arena : p.arena.Unbroken

theorem unbroken_rootArena : (Arena.empty.openTable none).2.Unbroken := by
  intro target s hs
  simp [Arena.openTable, Arena.empty] at hs

theorem unbroken_parse {lines : List String} (h : ∀ text ∈ lines, Text.Unbroken text) :
    (parse lines).program.Unbroken := by
  have hinitial := (wellFormed_parse lines).initial
  have hsourced := sourced_ofTokens (Cursor.ofLines lines).1
  rw [Cursor.ahead_ofLines] at hsourced
  have htokens {token : Token} (htoken : token ∈ Cursor.tokensFrom 1 lines) {kind : TokenKind}
      (hkind : token.kind = kind) (hne : kind ≠ .newline) : Text.Unbroken token.literal :=
    Cursor.unbroken_tokensFrom h htoken (hkind ▸ hne)
  unfold parse at hinitial ⊢
  simp only at hinitial ⊢
  split at hinitial
  case isFalse hlexical =>
    rw [if_neg hlexical]
    exact ⟨by simp [Program.empty, Statement.literalsAll], unbroken_rootArena⟩
  case isTrue hlexical =>
    rw [if_pos hlexical]
    refine ⟨fun text htext => ?_, fun target s hs => ⟨?_, ?_⟩⟩
    · obtain ⟨token, htoken, hkind, rfl⟩ := hsourced.literals htext
      exact Token.unbroken_unquoted (htokens htoken hkind (by decide))
    · obtain hold | ⟨token, htoken, hkind, hname⟩ := hsourced.names hs
      · exact (unbroken_rootArena hold).name
      · rw [hname]
        exact htokens htoken hkind (by decide)
    · rw [hinitial hs]
      exact s.kind.unbroken_initial

end Program

namespace Executor

variable {σ : Type}

theorem unbroken_runRoot (out : Sink σ) {s : State σ} {root : Block} (ha : s.arena.Unbroken)
    (hliterals : ∀ text ∈ Statement.literalsAll root.body, Text.Unbroken text) :
    (runRoot out s root).state.arena.Unbroken := by
  rw [arena_runRoot]
  split
  · exact Statement.unbroken_runAll out root.body root.table s ha hliterals
  · exact ha

theorem unbroken_execute (out : Sink σ) (x : Executor) {p : Program} (h : p.Unbroken)
    (sink : σ) : (x.execute out p sink).program.Unbroken := by
  obtain ⟨-, hprogram, -⟩ := execute_eq out x p sink
  rw [hprogram]
  exact ⟨h.literals, unbroken_runRoot out h.arena h.literals⟩

theorem unbroken_of_executed {p q : Program} (h : p.Executed q) (hp : p.Unbroken) :
    q.Unbroken := by
  induction h with
  | start => exact hp
  | again _ out x sink ih => exact unbroken_execute out x ih sink

end Executor

end LineScript
