import LineScript.Proofs.ErrorOrder
import LineScript.Proofs.Abandonment
import LineScript.Proofs.Reading.Braces

/-!
# Braces that have no partner

Braces are paired from left to right, a closing one with the last opening one that is still
open (`Token.unpaired`). Nothing is left over just if the braces are balanced
(`Token.unpaired_eq_nil_iff`). A reading calls itself for every block, but if it finds nothing
else at fault it comes to the same result: every closing brace that is left over is reported
where it stands, and then every opening one at the end of input (`Program.errors_parse_braces`).
-/

namespace LineScript

/-! ## Pairs of braces -/

namespace Token

/-- The braces that have no partner. -/
structure Unpaired where
  closing : List Token
  opening : List Token
  deriving DecidableEq, Repr

/-- Pairs braces from left to right. The opening ones that wait for a partner are in
`opened`, the last one first. -/
def unpaired (opened : List Token) : List Token → Unpaired
  | [] => { closing := [], opening := opened }
  | token :: tokens =>
    if token.kind = .leftBrace then unpaired (token :: opened) tokens
    else if token.kind = .rightBrace then
      match opened with
      | [] =>
        let later := unpaired [] tokens
        { later with closing := token :: later.closing }
      | _ :: opened => unpaired opened tokens
    else unpaired opened tokens

/-- Every brace has its partner, and what stands between the two is balanced as well. -/
inductive Balanced : List Token → Prop where
  | nil : Balanced []
  | plain {token : Token} {tokens : List Token} (h : token.isBrace = false)
      (later : Balanced tokens) : Balanced (token :: tokens)
  | pair {opening closing : Token} {inside tokens : List Token}
      (hopening : opening.kind = .leftBrace) (inner : Balanced inside)
      (hclosing : closing.kind = .rightBrace) (later : Balanced tokens) :
      Balanced (opening :: (inside ++ closing :: tokens))

section unpaired

variable {token : Token} {tokens inside front more opened : List Token}

theorem unpaired_cons_of_plain (h : token.isBrace = false) :
    unpaired opened (token :: tokens) = unpaired opened tokens := by
  obtain ⟨hleft, hright⟩ := isBrace_eq_false_iff.mp h
  simp only [unpaired, hleft, hright, if_false]

theorem unpaired_cons_of_leftBrace (h : token.kind = .leftBrace) :
    unpaired opened (token :: tokens) = unpaired (token :: opened) tokens := by
  simp only [unpaired, h, if_true]

theorem unpaired_cons_of_paired {last : Token} (h : token.kind = .rightBrace) :
    unpaired (last :: opened) (token :: tokens) = unpaired opened tokens := by
  simp [unpaired, h]

theorem unpaired_cons_of_stray (h : token.kind = .rightBrace) :
    unpaired [] (token :: tokens) =
      { unpaired [] tokens with closing := token :: (unpaired [] tokens).closing } := by
  simp [unpaired, h]

/-- Only the braces count. -/
theorem unpaired_filter (opened tokens : List Token) :
    unpaired opened (tokens.filter isBrace) = unpaired opened tokens := by
  induction tokens generalizing opened with
  | nil => rfl
  | cons token tokens ih =>
    cases hbrace : token.isBrace with
    | false =>
      rw [List.filter_cons_of_neg (by simp [hbrace]), ih, unpaired_cons_of_plain hbrace]
    | true =>
      rw [List.filter_cons_of_pos hbrace]
      by_cases hleft : token.kind = .leftBrace
      · rw [unpaired_cons_of_leftBrace hleft, unpaired_cons_of_leftBrace hleft, ih]
      have hright : token.kind = .rightBrace := by simpa [isBrace, hleft] using hbrace
      cases opened with
      | nil => rw [unpaired_cons_of_stray hright, unpaired_cons_of_stray hright, ih]
      | cons last opened =>
        rw [unpaired_cons_of_paired hright, unpaired_cons_of_paired hright, ih]

/-- Tokens with the same braces leave the same over. -/
theorem unpaired_of_filter_eq {left : List Token}
    (h : left.filter isBrace = tokens.filter isBrace) :
    unpaired opened tokens = unpaired opened left := by
  rw [← unpaired_filter opened tokens, ← h, unpaired_filter]

/-! ## Balanced braces -/

/-- A balanced part changes nothing for the braces around it. -/
theorem Balanced.unpaired_append (h : Balanced inside) (opened more : List Token) :
    unpaired opened (inside ++ more) = unpaired opened more := by
  induction h generalizing opened more with
  | nil => rfl
  | plain hplain _ ih => rw [List.cons_append, unpaired_cons_of_plain hplain, ih]
  | pair hopening _ hclosing _ ihinner ihlater =>
    rw [List.cons_append, List.append_assoc, List.cons_append, unpaired_cons_of_leftBrace hopening,
      ihinner, unpaired_cons_of_paired hclosing, ihlater]

/-- The tokens close `depth` blocks, and apart from that they are balanced. -/
def Closes : (depth : Nat) → List Token → Prop
  | 0, tokens => Balanced tokens
  | depth + 1, tokens => ∃ inside closing later, tokens = inside ++ closing :: later ∧
      Balanced inside ∧ closing.kind = .rightBrace ∧ Closes depth later

/-- What a balanced list may begin with may come in front of closed blocks too. -/
theorem Closes.append {depth : Nat} (h : Closes depth tokens)
    (hfront : ∀ ⦃tokens⦄, Balanced tokens → Balanced (front ++ tokens)) :
    Closes depth (front ++ tokens) := by
  cases depth with
  | zero => exact hfront h
  | succ depth =>
    obtain ⟨inside, closing, later, rfl, hinside, hclosing, hlater⟩ := h
    exact ⟨front ++ inside, closing, later, by simp, hfront hinside, hclosing, hlater⟩

/-- If nothing is left over, all blocks that were open are closed. -/
theorem closes_of_unpaired (h : unpaired opened tokens = { closing := [], opening := [] }) :
    Closes opened.length tokens := by
  induction tokens generalizing opened with
  | nil =>
    obtain rfl : opened = [] := congrArg Unpaired.opening h
    exact .nil
  | cons token tokens ih =>
    by_cases hleft : token.kind = .leftBrace
    · rw [unpaired_cons_of_leftBrace hleft] at h
      obtain ⟨inside, closing, later, rfl, hinside, hclosing, hlater⟩ := ih h
      have hpair : Closes opened.length (token :: (inside ++ [closing]) ++ later) := by
        refine hlater.append fun tokens htokens => ?_
        simpa using Balanced.pair hleft hinside hclosing htokens
      simpa using hpair
    by_cases hright : token.kind = .rightBrace
    · cases opened with
      | nil =>
        rw [unpaired_cons_of_stray hright] at h
        cases congrArg Unpaired.closing h
      | cons last opened =>
        rw [unpaired_cons_of_paired hright] at h
        exact ⟨[], token, tokens, rfl, .nil, hright, ih h⟩
    · have hplain : token.isBrace = false := isBrace_eq_false_iff.mpr ⟨hleft, hright⟩
      rw [unpaired_cons_of_plain hplain] at h
      have hfront : ∀ ⦃tokens⦄, Balanced tokens → Balanced ([token] ++ tokens) :=
        fun _ => .plain hplain
      exact (ih h).append hfront

theorem unpaired_eq_nil_iff :
    unpaired [] tokens = { closing := [], opening := [] } ↔ Balanced tokens := by
  constructor
  · exact closes_of_unpaired
  · intro h
    have hall := h.unpaired_append [] []
    rwa [List.append_nil] at hall

end unpaired

end Token

/-! ## Walks -/

namespace Walk

variable {w : Walk} {stop : Position} {first : Token} {tokens rest opened : List Token}

/-- The errors that a walk ends with if nothing but braces is at fault in the tokens and the
open blocks are those of the opened braces. -/
def foretold (stop : Position) (w : Walk) (opened tokens : List Token) : List SyntaxError :=
  w.errors ++ ((Token.unpaired opened tokens).closing.map .unmatched ++
    List.replicate (Token.unpaired opened tokens).opening.length (Recovery.unclosed stop))

/-- A step after which the same errors are foretold. -/
structure KeepsForetold (stop : Position) (w : Walk) (opened : List Token) (first : Token)
    (rest : List Token) (v : Walk) (left opened' : List Token) : Prop where
  step_eq : w.step stop (first :: rest) = some (v, left)
  reading : v.mode = .reading
  suffix : left <:+ rest
  opened_length : opened'.length = v.outer.length
  foretold_eq : v.foretold stop opened' left = w.foretold stop opened (first :: rest)

section step

variable (hmode : w.mode = .reading) (hopened : opened.length = w.outer.length)
variable (honly : ∀ e ∈ (w.run stop (first :: rest)).errors, e.isBrace = true)

include honly in
/-- An error that is not about braces would still be there at the end. -/
theorem isBrace_of_step {p : Walk × List Token} (hstep : w.step stop (first :: rest) = some p)
    {e : SyntaxError} (he : e ∈ p.1.errors) : e.isBrace = true := by
  refine honly e ?_
  rw [run_of_step hstep]
  exact (errors_prefix_run stop p.1 p.2).subset he

include hmode hopened

theorem keepsForetold_of_blank (hblank : first.kind = .newline ∨ first.kind = .hash) :
    KeepsForetold stop w opened first rest w rest opened := by
  have hplain : first.isBrace = false := by
    obtain hkind | hkind := hblank
    · exact Token.isBrace_of_kind hkind (by decide)
    · exact Token.isBrace_of_kind hkind (by decide)
  refine ⟨step_of_blank hmode hblank, hmode, List.suffix_rfl, hopened, ?_⟩
  rw [foretold, foretold, Token.unpaired_cons_of_plain hplain]

theorem keepsForetold_of_leftBrace (hleft : first.kind = .leftBrace) :
    KeepsForetold stop w opened first rest (w.enter first) rest (first :: opened) := by
  refine ⟨step_of_leftBrace hmode hleft, hmode, List.suffix_rfl, ?_, ?_⟩
  · simp [enter, hopened]
  · rw [foretold, foretold, Token.unpaired_cons_of_leftBrace hleft]
    rfl

theorem keepsForetold_of_stray (hright : first.kind = .rightBrace) (houter : w.outer = []) :
    KeepsForetold stop w opened first rest (w.report (.unmatched first)) rest [] := by
  obtain rfl : opened = [] := List.eq_nil_of_length_eq_zero (by rw [hopened, houter]; rfl)
  have hroot : w.nested = false := by simp [nested, houter]
  refine ⟨step_of_stray hmode hright hroot, hmode, List.suffix_rfl, hopened, ?_⟩
  rw [foretold, foretold, Token.unpaired_cons_of_stray hright]
  simp

include honly

theorem exists_keepsForetold_of_rightBrace (hright : first.kind = .rightBrace) :
    ∃ v left opened', KeepsForetold stop w opened first rest v left opened' := by
  cases houter : w.outer with
  | nil => exact ⟨_, _, _, keepsForetold_of_stray hmode hopened hright houter⟩
  | cons parent outer =>
    have hnested : w.nested = true := by simp [nested, houter]
    have hstep : w.step stop (first :: rest) = _ := step_of_closed hmode hright hnested
    obtain ⟨left, ends⟩ | ⟨found, later, rfl, goes⟩ := ends_or_goes rest
    · cases opened with
      | nil => simp [houter] at hopened
      | cons last opened =>
        have hsuffix := leave_suffix w rest
        rw [leave_of_ends houter ends] at hstep hsuffix
        have hparent : opened.length = outer.length := by simpa [houter] using hopened
        refine ⟨_, left, opened, hstep, rfl, hsuffix, hparent, ?_⟩
        rw [foretold, foretold, Token.unpaired_cons_of_paired hright,
          Token.unpaired_of_filter_eq ends.filter_isBrace]
        rfl
    · rw [leave_of_goes houter goes, giveUp_of_goes rfl] at hstep
      have hbrace : (SyntaxError.expected .endOfStatement found).isBrace = true :=
        isBrace_of_step honly hstep (by simp)
      cases hbrace

theorem exists_keepsForetold_of_leaf (hleaf : first.StartsLeaf) :
    ∃ v left, KeepsForetold stop w opened first rest v left opened := by
  have hbraceless := Statement.braceless_read (w.site stop) w.arena rest hleaf
  have hstep : w.step stop (first :: rest) = _ := step_of_startsLeaf hmode hleaf
  cases hread : (Statement.read (w.site stop) w.arena first rest).outcome with
  | ok statement =>
    rw [take_of_ok hread] at hstep
    obtain ⟨-, -, -, hleft, hright⟩ := hleaf
    have hplain : first.isBrace = false := Token.isBrace_eq_false_iff.mpr ⟨hleft, hright⟩
    have hsuffix := (Statement.read (w.site stop) w.arena first rest).suffix
    refine ⟨_, _, hstep, hmode, hsuffix, hopened, ?_⟩
    rw [foretold, foretold, Token.unpaired_cons_of_plain hplain,
      Token.unpaired_of_filter_eq hbraceless.kept]
    rfl
  | error e =>
    rw [take_of_error hread] at hstep
    have hbrace : e.isBrace = true :=
      isBrace_of_step honly hstep (by rw [giveUp_errors]; simp)
    rw [hbraceless.error hread] at hbrace
    cases hbrace

theorem exists_keepsForetold (hinput : first.kind ≠ .endOfInput) :
    ∃ v left opened', KeepsForetold stop w opened first rest v left opened' := by
  by_cases hblank : first.kind = .newline ∨ first.kind = .hash
  · exact ⟨_, _, _, keepsForetold_of_blank hmode hopened hblank⟩
  by_cases hleft : first.kind = .leftBrace
  · exact ⟨_, _, _, keepsForetold_of_leftBrace hmode hopened hleft⟩
  by_cases hright : first.kind = .rightBrace
  · exact exists_keepsForetold_of_rightBrace hmode hopened honly hright
  · rw [not_or] at hblank
    obtain ⟨v, left, hkeeps⟩ := exists_keepsForetold_of_leaf hmode hopened honly
      ⟨hblank.1, hblank.2, hinput, hleft, hright⟩
    exact ⟨v, left, opened, hkeeps⟩

end step

/-- A walk that finds nothing but braces at fault ends with the errors that are foretold. -/
theorem errors_run_of_braces (hmode : w.mode = .reading)
    (hinput : ∀ token ∈ tokens, token.kind ≠ .endOfInput)
    (hopened : opened.length = w.outer.length)
    (honly : ∀ e ∈ (w.run stop tokens).errors, e.isBrace = true) :
    (w.run stop tokens).errors = w.foretold stop opened tokens := by
  -- Every step leaves fewer tokens, and as many open braces as there are blocks around it.
  induction hn : tokens.length using Nat.strongRecOn generalizing w tokens opened with
  | ind n ih =>
    subst hn
    cases tokens with
    | nil =>
      rw [errors_run_nil, foretold, Token.unpaired, List.map_nil, List.nil_append, hopened]
    | cons first rest =>
      obtain ⟨hfirst, hrest⟩ := List.forall_mem_cons.mp hinput
      obtain ⟨v, left, opened', hkeeps⟩ := exists_keepsForetold hmode hopened honly hfirst
      rw [run_of_step hkeeps.step_eq] at honly ⊢
      rw [← hkeeps.foretold_eq]
      exact ih left.length (Nat.lt_succ_of_le hkeeps.suffix.length_le) hkeeps.reading
        (fun token htoken => hrest token (hkeeps.suffix.subset htoken)) hkeeps.opened_length
        honly rfl

end Walk

/-! ## Programs -/

namespace Program

/-- If nothing but braces is at fault in a text, its errors are the braces that have no
partner: first the closing ones, each where it stands, and then, at the end of input, one
error for each opening one. So there is no error just if the braces are balanced. -/
theorem errors_parse_braces {lines : List String}
    (honly : ∀ e ∈ (parse lines).errors, ∃ b : SyntaxError, e = .grammar b ∧
      (b.cause = .missingClosingBrace ∨ b.cause = .unmatchedClosingBrace)) :
    let cursor := (Cursor.ofLines lines).1
    let unpaired := Token.unpaired [] cursor.ahead
    (parse lines).errors =
        unpaired.closing.map (fun brace =>
          .grammar { position := brace.position, cause := .unmatchedClosingBrace }) ++
        unpaired.opening.map (fun _ =>
          .grammar { position := cursor.closing.position, cause := .missingClosingBrace }) ∧
      ((parse lines).errors = [] ↔ Token.Balanced cursor.ahead) := by
  intro cursor unpaired
  have hscanned : (Cursor.ofLines lines).2 = [] := by
    by_contra hlexical
    obtain ⟨e, he⟩ := List.exists_mem_of_ne_nil _ hlexical
    obtain ⟨b, hb, -⟩ := honly (.lexical e) <| by
      rw [parse_errors_of_lexical hlexical]
      exact List.mem_map_of_mem he
    cases hb
  have hparse := (parse_of_scanned hscanned).2
  have hbraces : ∀ e ∈ (Walk.start.run cursor.closing.position
      (Cursor.tokensFrom 1 lines)).errors, e.isBrace = true := by
    intro e he
    obtain ⟨b, ⟨⟩, hcause⟩ := honly (.grammar e) (hparse ▸ List.mem_map_of_mem he)
    obtain hcause | hcause := hcause <;> simp [SyntaxError.isBrace, hcause]
  have hopened : ([] : List Token).length = Walk.start.outer.length := rfl
  have herrors := Walk.errors_run_of_braces rfl (Cursor.wholeLines_tokensFrom 1 lines).goesOn
    hopened hbraces
  have hall : (parse lines).errors = unpaired.closing.map (fun brace =>
      .grammar { position := brace.position, cause := .unmatchedClosingBrace }) ++
      unpaired.opening.map (fun _ =>
        .grammar { position := cursor.closing.position, cause := .missingClosingBrace }) := by
    rw [hparse, herrors, Walk.foretold, List.map_append, List.map_append, List.map_map,
      List.map_replicate, List.map_const']
    rfl
  refine ⟨hall, ?_⟩
  rw [hall, ← Token.unpaired_eq_nil_iff, List.append_eq_nil_iff, List.map_eq_nil_iff,
    List.map_eq_nil_iff, Token.Unpaired.mk.injEq]

/-- A closing brace too many on either side of a block, one that is in a comment, and two
blocks that are never closed. -/
theorem errors_parse_braces_open :
    let lines := ["\x7d println 1", "\x7b \x7b var x number", "\x7d # \x7d",
      "print 2 \x7d \x7d \x7b \x7b"]
    let errors : List Diagnostic :=
      [.grammar ⟨⟨1, 1⟩, .unmatchedClosingBrace⟩, .grammar ⟨⟨4, 11⟩, .unmatchedClosingBrace⟩,
        .grammar ⟨⟨4, 16⟩, .missingClosingBrace⟩, .grammar ⟨⟨4, 16⟩, .missingClosingBrace⟩]
    (parse lines).errors = errors ∧ ¬ Token.Balanced (Cursor.ofLines lines).1.ahead := by
  intro lines errors
  have herrors : (parse lines).errors = errors := by decide +kernel
  have honly : ∀ e ∈ (parse lines).errors, ∃ b : SyntaxError, e = .grammar b ∧
      (b.cause = .missingClosingBrace ∨ b.cause = .unmatchedClosingBrace) := by
    rw [herrors]
    simp [errors]
  refine ⟨herrors, fun hbalanced => ?_⟩
  have hnone := (errors_parse_braces honly).2.mpr hbalanced
  exact List.cons_ne_nil _ _ (herrors.symm.trans hnone)

end Program

end LineScript
