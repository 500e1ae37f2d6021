import LineScript.Proofs.Reading.Marks

/-!
# Malformed declarations

A declaration without a name or without a type costs the rest of its block, and nothing
else. If its tokens and the rest of the block are cut out, up to the brace that closes
the block, the program is read as before, but for the error and the null statement that
the declaration left. Where the block ends is said by counting braces
(`Token.blockEnd`), and a walk that drops tokens finds the same end
(`Walk.exists_run_skipped`).
-/

namespace LineScript

/-! ## Counting braces -/

namespace Token

def opened (tokens : List Token) : Nat :=
  tokens.countP fun token => token.kind = .leftBrace

def closed (tokens : List Token) : Nat :=
  tokens.countP fun token => token.kind = .rightBrace

/-- How many tokens of the block come first: those before the first brace that closes
more blocks than were opened. At the top level no brace ends the block. -/
def blockEnd (nested : Bool) (tokens : List Token) : Nat :=
  if nested then
    (List.range tokens.length).findIdx fun m =>
      opened (tokens.take (m + 1)) < closed (tokens.take (m + 1))
  else tokens.length

variable {tokens : List Token}

/-- Inside the block no more blocks are closed than were opened. -/
theorem closed_le_opened_of_le_blockEnd {m : Nat} (h : m ≤ blockEnd true tokens) :
    closed (tokens.take m) ≤ opened (tokens.take m) := by
  cases m with
  | zero => simp [closed]
  | succ m =>
    rw [blockEnd, if_pos rfl] at h
    have hnot := List.not_of_lt_findIdx h
    simpa using hnot

/-- The block ends with the tokens, or in front of a brace that closes it. -/
theorem blockEnd_cases (nested : Bool) (tokens : List Token) :
    tokens.drop (blockEnd nested tokens) = [] ∨
      nested = true ∧
        closed (tokens.take (blockEnd nested tokens)) =
          opened (tokens.take (blockEnd nested tokens)) ∧
        ∃ brace rest, tokens.drop (blockEnd nested tokens) = brace :: rest ∧
          brace.kind = .rightBrace := by
  cases nested with
  | false => exact .inl (by simp [blockEnd])
  | true =>
    by_cases hend : tokens.length ≤ blockEnd true tokens
    · exact .inl (List.drop_eq_nil_of_le hend)
    rw [Nat.not_le] at hend
    refine .inr ⟨rfl, ?_⟩
    obtain ⟨brace, rest, hdrop⟩ : ∃ brace rest,
        tokens.drop (blockEnd true tokens) = brace :: rest :=
      List.exists_cons_of_ne_nil (by rwa [Ne, List.drop_eq_nil_iff, Nat.not_le])
    have hinside := closed_le_opened_of_le_blockEnd (Nat.le_refl (blockEnd true tokens))
    have houtside : opened (tokens.take (blockEnd true tokens + 1)) <
        closed (tokens.take (blockEnd true tokens + 1)) := by
      have hfound : blockEnd true tokens < (List.range tokens.length).length := by
        rwa [List.length_range]
      rw [blockEnd, if_pos rfl] at hfound ⊢
      simpa using List.findIdx_getElem (w := hfound)
    have htake : tokens.take (blockEnd true tokens + 1) =
        tokens.take (blockEnd true tokens) ++ [brace] := by
      rw [List.take_add, hdrop]
      rfl
    simp only [htake, opened, closed, List.countP_append,
      List.countP_singleton] at houtside hinside ⊢
    by_cases hbrace : brace.kind = .rightBrace
    · refine ⟨?_, brace, rest, hdrop, hbrace⟩
      simp only [hbrace] at houtside
      simp at houtside
      omega
    · simp only [hbrace] at houtside
      simp at houtside
      omega

end Token

namespace Walk

variable {stop : Position} {w v : Walk} {tokens taken rest left : List Token} {e : SyntaxError}
variable {p : Walk × List Token}

/-- Tokens are dropped as long as they do not close the block, and the depth counts
the blocks that are open among them. -/
theorem exists_run_skipped (taken : List Token) {depth : Nat} (hmode : w.mode = .skipping depth)
    (hinput : ∀ token ∈ taken, token.kind ≠ .endOfInput)
    (hopen : w.nested = true → ∀ m, Token.closed (taken.take m) ≤
      depth + Token.opened (taken.take m)) :
    ∃ depth', (∀ stop rest, w.run stop (taken ++ rest) =
        run stop { w with mode := .skipping depth' } rest) ∧
      (w.nested = true → depth' + Token.closed taken = depth + Token.opened taken) := by
  induction taken generalizing w depth with
  | nil => exact ⟨depth, by simp [← hmode], by simp [Token.closed, Token.opened]⟩
  | cons token taken ih =>
    obtain ⟨hfirst, hinput⟩ := List.forall_mem_cons.mp hinput
    -- One step drops the token and leaves a depth that counts it.
    have next {d : Nat}
        (hstep : ∀ stop rest, w.step stop (token :: rest) =
          some ({ w with mode := .skipping d }, rest))
        (hdepth : w.nested = true → d + Token.closed [token] = depth + Token.opened [token]) :
        ∃ depth', (∀ stop rest, w.run stop (token :: taken ++ rest) =
            run stop { w with mode := .skipping depth' } rest) ∧
          (w.nested = true →
            depth' + Token.closed (token :: taken) = depth + Token.opened (token :: taken)) := by
      have hcount (tokens : List Token) :
          Token.closed (token :: tokens) = Token.closed [token] + Token.closed tokens ∧
            Token.opened (token :: tokens) = Token.opened [token] + Token.opened tokens :=
        ⟨@List.countP_append _ _ [token] tokens, @List.countP_append _ _ [token] tokens⟩
      obtain ⟨depth', hrun, hcounted⟩ := ih (w := { w with mode := .skipping d }) rfl hinput <| by
        intro hnested m
        have htaken := hopen hnested (m + 1)
        rw [List.take_succ_cons, (hcount _).1, (hcount _).2] at htaken
        have hdepth := hdepth hnested
        omega
      refine ⟨depth', ?_, ?_⟩
      · intro stop rest
        rw [List.cons_append, run_of_step (hstep stop _)]
        exact hrun stop rest
      · intro hnested
        have hdepth := hdepth hnested
        have hcounted := hcounted hnested
        rw [(hcount _).1, (hcount _).2]
        omega
    by_cases hleft : token.kind = .leftBrace
    · refine next (fun _ _ => step_of_skipped_leftBrace hmode hleft) fun _ => ?_
      simp [Token.closed, Token.opened, hleft]
    by_cases hright : token.kind = .rightBrace
    · have hpositive (hnested : w.nested = true) : 0 < depth := by
        have hone := hopen hnested 1
        simp [Token.closed, Token.opened, hright] at hone
        omega
      have hinside : (w.nested && decide (depth = 0)) = false := by
        rw [Bool.and_eq_false_iff, decide_eq_false_iff_not]
        cases hnested : w.nested with
        | false => exact .inl rfl
        | true => exact .inr (Nat.pos_iff_ne_zero.mp (hpositive hnested))
      refine next (fun _ _ => step_of_skipped_rightBrace hmode hright hinside) fun hnested => ?_
      have := hpositive hnested
      simp [Token.closed, Token.opened, hright]
      omega
    · refine next (d := depth) (fun _ _ => ?_) fun _ => ?_
      · rw [step_of_skipped hmode hfirst hleft hright, ← hmode]
      · simp [Token.closed, Token.opened, hleft, hright]

/-! ## Places of a walk -/

/-- A walk comes by this place. -/
inductive Reaches (stop : Position) : Walk → List Token → Walk → List Token → Prop where
  | here {w : Walk} {tokens : List Token} : Reaches stop w tokens w tokens
  | step {w v : Walk} {tokens left : List Token} {p : Walk × List Token}
      (h : w.step stop tokens = some p) (later : Reaches stop p.1 p.2 v left) :
      Reaches stop w tokens v left

theorem step_suffix (h : w.step stop tokens = some p) : p.2 <:+ tokens := by
  cases stepsTo_of_step h with
  | misses _ hleft => exact (leave_suffix _ _).trans hleft
  | passes => exact List.suffix_cons _ _
  | closes => exact (leave_suffix _ _).trans (List.suffix_cons _ _)
  | strays => exact List.suffix_cons _ _
  | opens => exact List.suffix_cons _ _
  | takes => exact (take_suffix _ _ _ _).trans (List.suffix_cons _ _)

namespace Reaches

theorem run_eq (h : Reaches stop w tokens v left) : w.run stop tokens = v.run stop left := by
  induction h with
  | here => rfl
  | step hstep _ ih => rw [run_of_step hstep, ih]

theorem marked (h : Reaches stop w tokens v left) (hmarked : w.Marked) : v.Marked := by
  induction h with
  | here => exact hmarked
  | step hstep _ ih => exact ih (hmarked.step hstep)

/-- The tokens in front of a place where a statement begins are passed in the same way
whatever comes behind them. -/
theorem passes {first : Token} (h : Reaches stop w tokens v left)
    (hinput : ∀ token ∈ tokens, token.kind ≠ .endOfInput) (hleft : left = first :: rest)
    (hmode : v.mode = .reading) (hleaf : first.StartsLeaf) :
    ∃ taken, tokens = taken ++ left ∧ w.Passes taken v ∧ (taken = [] → w = v) := by
  induction h with
  | here => exact ⟨[], rfl, fun _ _ => rfl, fun _ => rfl⟩
  | @step w v tokens left p hstep _ ih =>
    have hinput' : ∀ token ∈ p.2, token.kind ≠ .endOfInput :=
      fun token htoken => hinput token ((step_suffix hstep).subset htoken)
    obtain ⟨taken, htaken, hpasses, hsame⟩ := ih hinput' hleft hmode
    cases tokens with
    | nil =>
      have hnil : p.2 = [] := List.suffix_nil.mp (step_suffix hstep)
      rw [hnil, hleft] at htaken
      simp at htaken
    | cons token tokens =>
      obtain ⟨later, left', look, u, rfl, hlook, hmove⟩ :=
        exists_moves w stop tokens (hinput token List.mem_cons_self)
      have hmoved := hmove.steps stop left' hlook
      rw [hstep] at hmoved
      cases hmoved
      dsimp only at htaken hpasses hsame
      subst htaken
      refine ⟨token :: (later ++ taken), by simp, hmove.passes ?_ hpasses, by simp⟩
      intro next hnext
      have hfront := hlook next hnext
      cases taken with
      | nil =>
        -- A walk that reads has not looked at the first token of a statement.
        obtain rfl := hsame rfl
        rw [List.nil_append, hleft, Token.frontOf_cons] at hfront
        obtain ⟨-, hhash, hinput, -, hright⟩ := hleaf
        obtain h | h | h := hfront ▸ hmove.stands next hnext hmode
        · exact absurd h hinput
        · exact absurd h hright
        · exact absurd h hhash
      | cons next' taken => exact congrArg some hfront

end Reaches

/-! ## The step that reports an error -/

theorem leave_errors (w : Walk) (tokens : List Token) :
    (w.leave tokens).1.errors = w.errors ∨
      ∃ found, (w.leave tokens).1.errors = w.errors ++ [.expected .endOfStatement found] := by
  cases houter : w.outer with
  | nil =>
    refine .inl ?_
    simp only [leave, houter]
  | cons parent outer =>
    obtain ⟨next, ends⟩ | ⟨found, rest, rfl, goes⟩ := ends_or_goes tokens
    · exact .inl (by rw [leave_of_ends houter ends]; rfl)
    · exact .inr ⟨found, by rw [leave_of_goes houter goes, giveUp_of_goes rfl]; rfl⟩

theorem giveUp_errors (e : SyntaxError) (w : Walk) (tokens : List Token) :
    (w.giveUp e tokens).1.errors = w.errors ++ [e] := by
  unfold giveUp
  split <;> rfl

section clean

variable {first : Token} {rest left : List Token} {v : Walk}

/-- A closing brace that is no error closes a block that may end there. -/
theorem closes_of_step (hmode : w.mode = .reading) (hright : first.kind = .rightBrace)
    (hstep : w.step stop (first :: rest) = some (v, left)) (hnone : v.errors = w.errors) :
    ∃ parent outer, w.outer = parent :: outer ∧ Ends rest left ∧
      v = add (.block w.block.position w.block.table w.block.body)
        { w with mode := .reading, block := parent, outer } := by
  cases hnested : w.nested with
  | false =>
    rw [step_of_stray hmode hright hnested] at hstep
    obtain ⟨rfl, -⟩ := Prod.mk.inj (Option.some.inj hstep)
    simp at hnone
  | true =>
    obtain ⟨parent, outer, houter⟩ := List.exists_cons_of_ne_nil (nested_iff.mp hnested)
    rw [step_of_closed hmode hright hnested] at hstep
    obtain ⟨next, ends⟩ | ⟨found, later, rfl, goes⟩ := ends_or_goes rest
    · rw [leave_of_ends houter ends] at hstep
      obtain ⟨rfl, rfl⟩ := Prod.mk.inj (Option.some.inj hstep)
      exact ⟨parent, outer, houter, ends, rfl⟩
    · rw [leave_of_goes houter goes, giveUp_of_goes rfl] at hstep
      obtain ⟨rfl, -⟩ := Prod.mk.inj (Option.some.inj hstep)
      simp at hnone

/-- A statement that is no error is read to its end. -/
theorem takes_of_step (hmode : w.mode = .reading) (hleaf : first.StartsLeaf)
    (hstep : w.step stop (first :: rest) = some (v, left)) (hnone : v.errors = w.errors) :
    let reading := Statement.read (w.site stop) w.arena first rest
    ∃ statement, reading.outcome = .ok statement ∧ reading.rest = left ∧
      v = add (.leaf statement) { w with arena := reading.arena } := by
  intro reading
  rw [step_of_startsLeaf hmode hleaf] at hstep
  cases hread : reading.outcome with
  | error e =>
    have htaken : (w.take stop first rest).1 = v := congrArg Prod.fst (Option.some.inj hstep)
    rw [take_of_error hread] at htaken
    rw [← htaken, giveUp_errors] at hnone
    simp at hnone
  | ok statement =>
    rw [take_of_ok hread] at hstep
    obtain ⟨rfl, hrest⟩ := Prod.mk.inj (Option.some.inj hstep)
    exact ⟨statement, rfl, hrest, rfl⟩

end clean

/-- A step reports at most one error. It costs the block only if it belongs to a
statement that was read. -/
theorem step_errors (h : w.step stop tokens = some p)
    (hinput : ∀ token ∈ tokens, token.kind ≠ .endOfInput) :
    p.1.errors = w.errors ∨ ∃ e, p.1.errors = w.errors ++ [e] ∧
      (e.abortsBlock = true → ∃ first rest, tokens = first :: rest ∧ w.mode = .reading ∧
        first.StartsLeaf ∧ (Statement.read (w.site stop) w.arena first rest).outcome = .error e ∧
          p = w.take stop first rest) := by
  cases stepsTo_of_step h with
  | @misses position _ left hnested hleft hend =>
    cases tokens with
    | nil =>
      rw [List.suffix_nil.mp hleft]
      obtain ⟨parent, outer, houter⟩ := List.exists_cons_of_ne_nil (nested_iff.mp hnested)
      refine .inr ⟨Recovery.unclosed position, ?_, nofun⟩
      rw [leave_of_ends (show (w.report _).outer = _ from houter) .input]
      rfl
    | cons token tokens => exact absurd (hend token rfl) (hinput token List.mem_cons_self)
  | passes => exact .inl rfl
  | closes =>
    obtain hsame | ⟨found, hfound⟩ := leave_errors w _
    · exact .inl hsame
    · exact .inr ⟨_, hfound, nofun⟩
  | strays => exact .inr ⟨_, rfl, nofun⟩
  | opens => exact .inl rfl
  | @takes token rest hmode hleaf =>
    cases hread : (Statement.read (w.site stop) w.arena token rest).outcome with
    | ok statement => exact .inl (by rw [take_of_ok hread]; rfl)
    | error e =>
      refine .inr ⟨e, ?_, fun _ => ⟨token, rest, rfl, hmode, hleaf, hread, rfl⟩⟩
      rw [take_of_error hread, giveUp_errors]

theorem errors_prefix_step (h : w.step stop tokens = some p) : w.errors <+: p.1.errors := by
  have hleave (u : Walk) (tokens : List Token) : u.errors <+: (u.leave tokens).1.errors := by
    obtain hsame | ⟨found, hfound⟩ := leave_errors u tokens
    · exact hsame ▸ List.prefix_rfl
    · exact hfound ▸ List.prefix_append _ _
  cases stepsTo_of_step h with
  | misses => exact (List.prefix_append _ _).trans (hleave (w.report _) _)
  | passes => exact List.prefix_rfl
  | closes => exact hleave w _
  | strays => exact List.prefix_append _ _
  | opens => exact List.prefix_rfl
  | @takes token rest =>
    cases hread : (Statement.read (w.site stop) w.arena token rest).outcome with
    | ok statement =>
      rw [take_of_ok hread]
      exact List.prefix_rfl
    | error e =>
      rw [take_of_error hread, giveUp_errors]
      exact List.prefix_append _ _

/-- Errors are never taken back. -/
theorem errors_prefix_run (stop : Position) (w : Walk) (tokens : List Token) :
    w.errors <+: (w.run stop tokens).errors := by
  fun_induction run stop w tokens with
  | case1 => exact List.prefix_rfl
  | case2 w tokens p hstep ih => exact (errors_prefix_step hstep).trans ih

/-- Every error that a walk finds is reported by one of its steps. -/
theorem exists_reaches_of_error {n : Nat} (hinput : ∀ token ∈ tokens, token.kind ≠ .endOfInput)
    (hold : w.errors.length ≤ n) (herror : (w.run stop tokens).errors[n]? = some e) :
    ∃ v left p, Reaches stop w tokens v left ∧ v.step stop left = some p ∧
      v.errors.length = n ∧ p.1.errors = v.errors ++ [e] ∧ left ⊆ tokens := by
  fun_induction run stop w tokens with
  | case1 =>
    rw [List.getElem?_eq_none hold] at herror
    cases herror
  | case2 w tokens p hstep ih =>
    have hinput' : ∀ token ∈ p.2, token.kind ≠ .endOfInput :=
      fun token htoken => hinput token ((step_suffix hstep).subset htoken)
    have later (hnot : p.1.errors.length ≤ n) :
        ∃ v left q, Reaches stop w tokens v left ∧ v.step stop left = some q ∧
          v.errors.length = n ∧ q.1.errors = v.errors ++ [e] ∧ left ⊆ tokens := by
      obtain ⟨v, left, q, hreaches, hq, hlength, herrors, hsub⟩ := ih hinput' hnot herror
      exact ⟨v, left, q, .step hstep hreaches, hq, hlength, herrors,
        List.Subset.trans hsub (step_suffix hstep).subset⟩
    obtain hsame | ⟨e', he', -⟩ := step_errors hstep hinput
    · exact later (hsame ▸ hold)
    · by_cases hnow : n = w.errors.length
      · subst hnow
        obtain ⟨more, hmore⟩ := errors_prefix_run stop p.1 p.2
        rw [← hmore, he', List.append_assoc] at herror
        simp only [List.getElem?_append_right (Nat.le_refl _), Nat.sub_self] at herror
        cases herror
        exact ⟨w, tokens, p, .here, hstep, rfl, he', List.Subset.refl _⟩
      · refine later ?_
        rw [he', List.length_append, List.length_singleton]
        omega

/-! ## The rest of the block -/

section abandoned

variable {first : Token} (hmode : w.mode = .reading) (hleaf : first.StartsLeaf)
variable (hread : (Statement.read (w.site stop) w.arena first rest).outcome = .error e)
variable (haborts : e.abortsBlock = true)

include hleaf hread haborts

/-- A malformed declaration takes its keyword and at most a name, and declares nothing. -/
theorem take_of_aborts :
    ∃ taken left, rest = taken ++ left ∧ first.Abandons taken ∧
      w.take stop first rest = ({ w.fail e with mode := .skipping 0 }, left) := by
  obtain ⟨taken, left, look, outcome, b, rfl, hlook, hturn⟩ :=
    Statement.exists_leafTurn hleaf (w.site stop) w.arena stop rest
  obtain ⟨hgives, harena⟩ := hturn.gives stop left hlook
  have houtcome : outcome = .error e := hgives.outcome_eq.symm.trans hread
  obtain ⟨habandons, hsame⟩ := hturn.aborts houtcome haborts
  refine ⟨taken, left, rfl, habandons, ?_⟩
  have hleft := hgives.rest_eq
  simp only [site] at harena hleft hread
  rw [take_of_error hread, giveUp_of_aborts haborts]
  simp only [site, harena, hleft, hsame]

include hmode

/-- Dropping the rest of the block is like walking on behind it. -/
theorem alike_abandoned (hmarked : w.Marked)
    (hinput : ∀ token ∈ first :: rest, token.kind ≠ .endOfInput) :
    Alike (Sketch.instead w.errors.length []) (w.errors ++ [e]) w.errors
      (w.run stop (first :: rest))
      (w.run stop ((first :: rest).drop (Token.blockEnd w.nested (first :: rest)))) := by
  obtain ⟨taken, left, rfl, ⟨hvar, hnames⟩, htake⟩ := take_of_aborts hleaf hread haborts
  let v : Walk := { w.fail e with mode := .skipping 0 }
  have hrun : w.run stop (first :: (taken ++ left)) = v.run stop (first :: (taken ++ left)) := by
    rw [run_of_step ((step_of_startsLeaf hmode hleaf).trans (congrArg some htake))]
    have hpasses : v.Passes (first :: taken) v := by
      refine passes_of_skipping rfl ?_
      refine List.forall_mem_cons.mpr ⟨by simp [hvar], fun token htoken => ?_⟩
      simp [hnames token htoken]
    exact (hpasses stop left).symm
  rw [hrun]
  generalize first :: (taken ++ left) = tokens at hinput ⊢
  let m := Token.blockEnd w.nested tokens
  -- The tokens of the block are dropped, and a depth of zero is left in front of its brace.
  obtain ⟨depth, hskipped, hdepth⟩ := exists_run_skipped (w := v) (tokens.take m) rfl
    (fun token htoken => hinput token (List.mem_of_mem_take htoken)) <| by
      intro hnested k
      have hnested : w.nested = true := hnested
      rw [List.take_take, Nat.zero_add]
      refine Token.closed_le_opened_of_le_blockEnd ?_
      rw [← hnested]
      exact Nat.min_le_right k m
  have hf : ∀ n, (w.errors ++ [e]).length ≤ n →
      Sketch.instead w.errors.length [] n = Sketch.nulls n := later_instead e
  have halike (mode : Mode) : Alike (Sketch.instead w.errors.length []) (w.errors ++ [e]) w.errors
      { w.fail e with mode } w := by
    have h : Alike (Sketch.instead w.errors.length []) (w.errors ++ [e]) w.errors (w.fail e)
        (w.mended [] w.arena) := alike_fail hmarked e
    rw [mended_nil] at h
    exact ⟨h.block, h.outer, h.arena, h.errors⟩
  have hwhole := hskipped stop (tokens.drop m)
  rw [List.take_append_drop] at hwhole
  rw [hwhole]
  obtain hend | ⟨hnested, hclosed, brace, later, hbrace, hkind⟩ :=
    Token.blockEnd_cases w.nested tokens
  · rw [hend]
    exact (halike _).run_nil hf stop
  · have hzero : depth = 0 := by
      have hdepth := hdepth hnested
      simp only [m] at hdepth
      omega
    have hleaves : step stop { v with mode := .skipping depth } (brace :: later) =
        some (leave { v with mode := .skipping depth } later) :=
      step_of_skipped_closed (w := { v with mode := .skipping depth }) rfl hkind hnested hzero
    rw [hbrace, run_of_step hleaves, run_of_step (step_of_closed hmode hkind hnested)]
    have halong := (halike (.skipping depth)).leave hf hnested later
    rw [halong.tokens]
    exact halong.toAlike.run hf halong.mode stop _

end abandoned

/-- The walk over the tokens stands in front of the declaration at index `k`, and reading
it gives the error that is number `n` of the walk. -/
structure DeclarationFails (stop : Position) (tokens : List Token) (n : Nat) (e : SyntaxError)
    (k : Nat) (w : Walk) : Prop where
  reaches : Reaches stop start tokens w (tokens.drop k)
  reading : w.mode = .reading
  number : w.errors.length = n
  fails : ∃ first rest, tokens.drop k = first :: rest ∧ first.kind = .keyword .var ∧
    (Statement.read (w.site stop) w.arena first rest).outcome = .error e

/-- An error that costs a block belongs to a declaration. -/
theorem exists_declarationFails {n : Nat} (hinput : ∀ token ∈ tokens, token.kind ≠ .endOfInput)
    (herror : (start.run stop tokens).errors[n]? = some e) (haborts : e.abortsBlock = true) :
    ∃ k w, DeclarationFails stop tokens n e k w ∧ start.Passes (tokens.take k) w := by
  obtain ⟨w, left, p, hreaches, hstep, hnumber, herrors, hsub⟩ :=
    exists_reaches_of_error hinput (Nat.zero_le n) herror
  obtain hsame | ⟨e', he', hleaf⟩ :=
    step_errors hstep fun token htoken => hinput token (hsub htoken)
  · rw [hsame] at herrors
    simp at herrors
  · rw [herrors] at he'
    obtain rfl : e = e' := by simpa using he'
    obtain ⟨first, rest, rfl, hmode, hleaf, hread, -⟩ := hleaf haborts
    obtain ⟨taken, rfl, hpasses, -⟩ := hreaches.passes hinput rfl hmode hleaf
    obtain ⟨_, _, -, ⟨hvar, -⟩, -⟩ := take_of_aborts hleaf hread haborts
    refine ⟨taken.length, w, ⟨?_, hmode, hnumber, first, rest, ?_, hvar, hread⟩, ?_⟩
    · rwa [List.drop_left]
    · rw [List.drop_left]
    · rwa [List.take_left]

/-- Cutting the rest of the block out makes the walk alike to what it was. -/
theorem alike_cut {n k : Nat} (hinput : ∀ token ∈ tokens, token.kind ≠ .endOfInput)
    (haborts : e.abortsBlock = true) (h : DeclarationFails stop tokens n e k w)
    (hpasses : start.Passes (tokens.take k) w) :
    let m := k + Token.blockEnd w.nested (tokens.drop k)
    Alike (Sketch.instead n []) (w.errors ++ [e]) w.errors (start.run stop tokens)
      (start.run stop (tokens.take k ++ tokens.drop m)) := by
  intro m
  obtain ⟨hreaches, hmode, rfl, first, rest, hdrop, hvar, hread⟩ := h
  have hleaf : first.StartsLeaf := by simp [Token.StartsLeaf, hvar]
  rw [hreaches.run_eq, hpasses, ← List.drop_drop, hdrop]
  refine alike_abandoned hmode hleaf hread haborts (hreaches.marked .start) ?_
  intro token htoken
  exact hinput token (List.mem_of_mem_drop (hdrop ▸ htoken))

end Walk

/-! ## Programs -/

theorem Cursor.ofTokens_concat {stop : Token} (h : stop.kind = .endOfInput) (tokens : List Token) :
    Cursor.ofTokens (tokens ++ [stop]) = { tokens, closing := stop, position := 0 } := by
  simp [Cursor.ofTokens, h]

namespace Program

/-- A malformed declaration costs the rest of its block and nothing else. It stands at
some index `k`, and its block ends at `m`. If the tokens from `k` to `m` are cut out, its
error is missing in the list, the null statement that it left is missing in the tree,
and everything else is as it was. -/
theorem ofTokens_abandoned {tokens : List Token} {stop : Token} {n : Nat} {e : SyntaxError}
    {flaw : DeclarationFlaw} (hinput : ∀ token ∈ tokens, token.kind ≠ .endOfInput)
    (hstop : stop.kind = .endOfInput)
    (herror : (ofTokens (.ofTokens (tokens ++ [stop]))).2.1[n]? = some e)
    (hcause : e.cause = .malformedDeclaration flaw) :
    ∃ k w, Walk.DeclarationFails stop.position tokens n e k w ∧
      let m := k + Token.blockEnd w.nested (tokens.drop k)
      let p := ofTokens (.ofTokens (tokens ++ [stop]))
      let q := ofTokens (.ofTokens (tokens.take k ++ tokens.drop m ++ [stop]))
      let sketch := (Walk.start.run stop.position tokens).block
      q.2.1 = p.2.1.eraseIdx n ∧ q.1.arena = p.1.arena ∧
        p.1.root = sketch.fill Sketch.nulls ∧ q.1.root = sketch.fill (Sketch.instead n []) ∧
        (Sketch.marksAll sketch.body).Nodup := by
  have haborts : e.abortsBlock = true := by simp only [SyntaxError.abortsBlock, hcause]
  have hwalk (tokens : List Token) := Walk.run_start (.ofTokens (tokens ++ [stop]))
  simp only [Cursor.ofTokens_concat hstop, Cursor.ahead, List.drop_zero] at hwalk herror ⊢
  rw [(hwalk tokens).2] at herror
  obtain ⟨k, w, hfails, hpasses⟩ := Walk.exists_declarationFails hinput herror haborts
  refine ⟨k, w, hfails, ?_⟩
  have halike := Walk.alike_cut hinput haborts hfails hpasses
  simp only [hwalk, true_and]
  refine ⟨?_, halike.arena.symm, halike.block.symm, (Walk.Marked.start.run _ _).nodup⟩
  rw [halike.eraseIdx, hfails.number]

/-- The declaration in the block has no name, and a brace stands in its place. -/
theorem ofTokens_abandoned_braces :
    let cursor := (Cursor.ofLines
      ["\x7b", "var \x7b", "var x string", "\x7d", "x = 1", "\x7d", "x = 2", "\x7b"]).1
    let tokens := cursor.tokens
    let stop := cursor.closing
    let p := ofTokens (.ofTokens (tokens ++ [stop]))
    (∀ token ∈ tokens, token.kind ≠ .endOfInput) ∧ stop.kind = .endOfInput ∧ p.2.1.length = 3 ∧
      ∃ e k w, p.2.1[0]? = some e ∧ Walk.DeclarationFails stop.position tokens 0 e k w ∧
        let m := k + Token.blockEnd w.nested (tokens.drop k)
        let q := ofTokens (.ofTokens (tokens.take k ++ tokens.drop m ++ [stop]))
        let sketch := (Walk.start.run stop.position tokens).block
        q.2.1 = p.2.1.eraseIdx 0 ∧ q.1.arena = p.1.arena ∧
          p.1.root = sketch.fill Sketch.nulls ∧ q.1.root = sketch.fill (Sketch.instead 0 []) ∧
          (Sketch.marksAll sketch.body).Nodup := by
  intro cursor tokens stop p
  have hinput : ∀ token ∈ tokens, token.kind ≠ .endOfInput := by decide +kernel
  have hstop : stop.kind = .endOfInput := by decide +kernel
  have hlength : p.2.1.length = 3 := by decide +kernel
  have hfirst : (p.2.1[0]?.map SyntaxError.cause) =
      some (.malformedDeclaration (.noName "\x7b")) := by decide +kernel
  obtain ⟨e, herror, hcause⟩ := Option.map_eq_some_iff.mp hfirst
  obtain ⟨k, w, h⟩ := ofTokens_abandoned hinput hstop herror hcause
  exact ⟨hinput, hstop, hlength, e, k, w, herror, h⟩

end Program

end LineScript
