import LineScript.Proofs.Reading.Leaves
import LineScript.Proofs.Reading.Walk

/-!
# What a step of a walk sees

A step takes tokens from one line and looks at most one token ahead. `Walk.Moves` says
what every step has in common: which tokens it depends on, what it may leave in front
of the walk, and where it may find an error. Every step in front of a token is such a
move (`Walk.exists_moves`), so that walks over different tokens can be compared as far
as the tokens agree.
-/

namespace LineScript

variable {stop stop' : Position} {tokens left left' : List Token} {look : Option Token}

/-! ## Dropping the rest of a statement -/

namespace Recovery

/-- Behind a failed statement the tokens are dropped, whenever `look`, if it is there,
comes behind them. -/
structure Resyncs (nested : Bool) (dropped : List Token) (look : Option Token) : Prop where
  drops : ∀ (stop : Position) (left : List Token),
    (∀ next ∈ look, Token.frontOf stop left = next) → resync nested (dropped ++ left) = left
  oneLine : Token.OneLine (dropped ++ look.toList)
  stands : ∀ next ∈ look, next.kind = .endOfInput ∨ next.kind = .rightBrace ∧ nested = true
  seen : dropped = [] → look.isSome

theorem resync_of_endOfInput {nested : Bool} {next : Token}
    (hnext : Token.frontOf stop left = next) (h : next.kind = .endOfInput) :
    resync nested left = left := by
  cases left with
  | nil => rfl
  | cons token rest =>
    rw [← hnext, Token.frontOf_cons] at h
    simp only [resync, h]

theorem resync_of_rightBrace {next : Token} (hnext : Token.frontOf stop left = next)
    (h : next.kind = .rightBrace) : resync true left = left := by
  obtain ⟨rest, rfl⟩ := Token.exists_cons_of_frontOf hnext (by simp [h])
  simp only [resync, h, if_true]

theorem resync_of_dropped {nested : Bool} {token : Token} (hinput : token.kind ≠ .endOfInput)
    (hline : token.kind ≠ .newline) (hbrace : ¬ (token.kind = .rightBrace ∧ nested = true)) :
    resync nested (token :: tokens) = resync nested tokens := by
  simp only [resync]
  split
  · contradiction
  · rename_i hright
    rw [if_neg fun hnested => hbrace ⟨hright, hnested⟩]
  · contradiction
  · rfl

theorem exists_resyncs (nested : Bool) (stop : Position) (tokens : List Token) :
    ∃ dropped left look, tokens = dropped ++ left ∧
      (∀ next ∈ look, Token.frontOf stop left = next) ∧ Resyncs nested dropped look := by
  induction tokens with
  | nil =>
    refine ⟨[], [], some (Token.endAt stop), rfl, by simp, ?_, by simp [Token.OneLine], ?_, by simp⟩
    · intro stop' left' hlook
      exact resync_of_endOfInput (hlook _ rfl) rfl
    · rintro _ ⟨⟩
      exact .inl rfl
  | cons token rest ih =>
    by_cases hinput : token.kind = .endOfInput
    · refine ⟨[], token :: rest, some token, rfl, by simp, ?_, by simp [Token.OneLine], ?_, by simp⟩
      · intro stop' left' hlook
        exact resync_of_endOfInput (hlook _ rfl) hinput
      · rintro _ ⟨⟩
        exact .inl hinput
    by_cases hline : token.kind = .newline
    · refine ⟨[token], rest, none, rfl, by simp, ?_, by simp [Token.OneLine], by simp, by simp⟩
      intro stop' left' _
      simp only [List.cons_append, List.nil_append, resync, hline]
    by_cases hbrace : token.kind = .rightBrace ∧ nested = true
    · refine ⟨[], token :: rest, some token, rfl, by simp, ?_, by simp [Token.OneLine], ?_, by simp⟩
      · intro stop' left' hlook
        rw [hbrace.2]
        exact resync_of_rightBrace (hlook _ rfl) hbrace.1
      · rintro _ ⟨⟩
        exact .inr hbrace
    · obtain ⟨dropped, left, look, rfl, hlook, h⟩ := ih
      refine ⟨token :: dropped, left, look, rfl, hlook, ?_, ?_, h.stands, by simp⟩
      · intro stop' left' hlook'
        rw [List.cons_append, resync_of_dropped hinput hline hbrace]
        exact h.drops stop' left' hlook'
      · exact .cons hline h.oneLine

/-- What stands in front is not changed by what is not seen. -/
theorem Resyncs.front {nested : Bool} {dropped : List Token} (h : Resyncs nested dropped look)
    (hlook : ∀ next ∈ look, Token.frontOf stop left = next)
    (hlook' : ∀ next ∈ look, Token.frontOf stop' left' = next) :
    Token.frontOf stop (dropped ++ left) = Token.frontOf stop' (dropped ++ left') := by
  cases dropped with
  | nil =>
    obtain ⟨next, hnext⟩ := Option.isSome_iff_exists.mp (h.seen rfl)
    exact (hlook next hnext).trans (hlook' next hnext).symm
  | cons token dropped => rfl

end Recovery

namespace Walk

variable {w v : Walk} {first : Token} {later rest : List Token}

/-! ## Closing a block -/

/-- Behind its closing brace, which was taken, the block takes the tokens, whenever
`look`, if it is there, comes behind them. -/
structure Closes (w : Walk) (later : List Token) (look : Option Token) (v : Walk) : Prop where
  leaves : ∀ (stop : Position) (left : List Token),
    (∀ next ∈ look, Token.frontOf stop left = next) → w.leave (later ++ left) = (v, left)
  oneLine : Token.OneLine (later ++ look.toList)
  mode : v.mode = .reading
  stands : ∀ next ∈ look,
    next.kind = .endOfInput ∨ next.kind = .rightBrace ∨ next.kind = .hash
  errors : v.errors = w.errors ∨ ∃ e, v.errors = w.errors ++ [e] ∧ e.At later

theorem exists_closes (hnested : w.nested = true) (stop : Position) (tokens : List Token) :
    ∃ later left look v, tokens = later ++ left ∧
      (∀ next ∈ look, Token.frontOf stop left = next) ∧ Closes w later look v := by
  obtain ⟨parent, outer, houter⟩ := List.exists_cons_of_ne_nil (nested_iff.mp hnested)
  let back : Walk := { w with mode := .reading, block := parent, outer }
  let whole := Sketch.block w.block.position w.block.table w.block.body
  generalize hnext : Token.frontOf stop tokens = next
  by_cases hline : next.kind = .newline
  · obtain ⟨left, rfl⟩ := Token.exists_cons_of_frontOf hnext (by simp [hline])
    refine ⟨[next], left, none, back.add whole, rfl, by simp, ?_, by simp [Token.OneLine], rfl,
      by simp, .inl rfl⟩
    intro stop' left' _
    exact leave_of_ends houter (.line hline)
  by_cases hbefore : next.kind = .endOfInput ∨ next.kind = .rightBrace ∨ next.kind = .hash
  · refine ⟨[], tokens, some next, back.add whole, rfl, by simp [hnext], ?_,
      by simp [Token.OneLine], rfl, by simpa using hbefore, .inl rfl⟩
    intro stop' left' hlook
    exact leave_of_ends houter (Statement.ends_before (hlook next rfl) hbefore)
  · obtain ⟨hinput, hright, hhash⟩ : next.kind ≠ .endOfInput ∧ next.kind ≠ .rightBrace ∧
        next.kind ≠ .hash := by simpa only [not_or] using hbefore
    have hgoes : Statement.endsBefore next.kind = false := by
      unfold Statement.endsBefore
      split <;> first | contradiction | rfl
    obtain ⟨dropped, left, look, rfl, hlook, h⟩ :=
      Recovery.exists_resyncs back.nested stop tokens
    -- The token at which the statement goes on is the first one to be dropped.
    cases dropped with
    | nil =>
      obtain ⟨next', hnext'⟩ := Option.isSome_iff_exists.mp (h.seen rfl)
      have : next' = next := (hlook next' hnext').symm.trans hnext
      obtain hstands | ⟨hstands, -⟩ := h.stands next' hnext'
      · exact absurd (this ▸ hstands) hinput
      · exact absurd (this ▸ hstands) hright
    | cons found dropped =>
      have hfound : found = next := hnext
      rw [← hfound] at hgoes
      refine ⟨found :: dropped, left, look, back.fail (.expected .endOfStatement found), rfl, hlook,
        ?_, h.oneLine, rfl, ?_, .inr ⟨_, rfl, found, by simp, rfl⟩⟩
      · intro stop' left' hlook'
        rw [List.cons_append, leave_of_goes houter hgoes, giveUp_of_goes rfl]
        exact congrArg (Prod.mk _) (h.drops stop' left' hlook')
      · intro next hnext
        obtain hstands | ⟨hstands, -⟩ := h.stands next hnext
        · exact .inl hstands
        · exact .inr (.inl hstands)

/-! ## Moves -/

/-- The walk reports no error at this token, even if it stands in front. -/
def Spares (w : Walk) (token : Token) : Prop :=
  w.mode ≠ .reading ∨ token.kind = .endOfInput ∨ token.kind = .rightBrace ∧ w.nested = true

/-- Where a move from `w` to `v` may find an error: at its first token, if that was not
spared, at a later one, or at the token that it looks at, which is spared from then on. -/
inductive Finds (w v : Walk) (first : Token) (later : List Token) (look : Option Token)
    (e : SyntaxError) : Prop where
  | first (h : ¬ w.Spares first) (hposition : e.position = first.position)
  | later (h : e.At later)
  | look {next : Token} (h : next ∈ look) (hspares : v.Spares next)
      (hposition : e.position = next.position)

/-- The walk takes the tokens in one step, whenever `look`, if it is there, comes behind
them. -/
structure Moves (w : Walk) (first : Token) (later : List Token) (look : Option Token) (v : Walk) :
    Prop where
  steps : ∀ (stop : Position) (left : List Token),
    (∀ next ∈ look, Token.frontOf stop left = next) →
      w.step stop (first :: (later ++ left)) = some (v, left)
  oneLine : Token.OneLine (first :: (later ++ look.toList))
  stands : ∀ next ∈ look, v.mode = .reading →
    next.kind = .endOfInput ∨ next.kind = .rightBrace ∨ next.kind = .hash
  errors : v.errors = w.errors ∨ ∃ e, v.errors = w.errors ++ [e] ∧ Finds w v first later look e
  awake : v.errors = w.errors → w.mode = .reading → v.mode = .reading

/-- A move that takes one token and looks at no other. -/
theorem Moves.single (hsteps : ∀ stop left, w.step stop (first :: left) = some (v, left))
    (herrors : v.errors = w.errors ∨
      ∃ e, v.errors = w.errors ++ [e] ∧ ¬ w.Spares first ∧ e.position = first.position)
    (hmode : w.mode = .reading → v.mode = .reading) : Moves w first [] none v where
  steps stop left _ := hsteps stop left
  oneLine := by simp [Token.OneLine]
  stands := by simp
  errors := by
    obtain h | ⟨e, he, hspares, hposition⟩ := herrors
    · exact .inl h
    · exact .inr ⟨e, he, .first hspares hposition⟩
  awake _ := hmode

theorem Closes.moves (h : Closes w later look v) (hright : first.kind = .rightBrace)
    (hsteps : ∀ stop tokens, w.step stop (first :: tokens) = some (w.leave tokens)) :
    Moves w first later look v where
  steps stop left hlook := (hsteps stop _).trans (congrArg some (h.leaves stop left hlook))
  oneLine := .cons (by simp [hright]) h.oneLine
  stands next hnext _ := h.stands next hnext
  errors := by
    obtain herrors | ⟨e, he, hat⟩ := h.errors
    · exact .inl herrors
    · exact .inr ⟨e, he, .later hat⟩
  awake _ _ := h.mode

section leaf

variable {a b : Arena} {taken dropped : List Token} {statement : Statement} {e : SyntaxError}
variable {site : Site} {next : Token}
variable (hleaf : first.StartsLeaf) (hmode : w.mode = .reading)

include hleaf hmode

theorem not_spares_of_startsLeaf : ¬ w.Spares first := by
  obtain ⟨-, -, hinput, -, hright⟩ := hleaf
  rintro (h | h | ⟨h, -⟩)
  · exact h hmode
  · exact hinput h
  · exact hright h

theorem moves_of_ok
    (h : Statement.LeafTurn (w.site stop) w.arena first taken look (.ok statement) b) :
    Moves w first taken look (add (.leaf statement) { w with arena := b }) where
  steps stop' left hlook := by
    obtain ⟨hgives, harena⟩ := h.gives stop' left hlook
    rw [step_of_startsLeaf hmode hleaf, take_of_ok hgives.outcome_eq]
    have hrest := hgives.rest_eq
    simp only [Walk.site] at harena hrest ⊢
    rw [harena, hrest]
  oneLine := .cons hleaf.1 h.oneLine
  stands next hnext _ := h.ended rfl hnext
  errors := .inl rfl
  awake _ _ := hmode

theorem moves_of_aborts
    (h : Statement.LeafTurn (w.site stop) w.arena first taken look (.error e) b)
    (haborts : e.abortsBlock = true) :
    Moves w first taken look { fail e { w with arena := b } with mode := .skipping 0 } where
  steps stop' left hlook := by
    obtain ⟨hgives, harena⟩ := h.gives stop' left hlook
    rw [step_of_startsLeaf hmode hleaf, take_of_error hgives.outcome_eq, giveUp_of_aborts haborts]
    have hrest := hgives.rest_eq
    simp only [Walk.site] at harena hrest ⊢
    rw [harena, hrest]
  oneLine := .cons hleaf.1 h.oneLine
  stands next hnext hreading := by cases hreading
  errors := by
    obtain ⟨-, token, htoken, hposition⟩ := h.failed rfl
    refine .inr ⟨e, rfl, ?_⟩
    rw [List.mem_cons, List.mem_append, Option.mem_toList] at htoken
    obtain rfl | htaken | hnext := htoken
    · exact .first (not_spares_of_startsLeaf hleaf hmode) hposition
    · exact .later ⟨token, htaken, hposition⟩
    · exact .look hnext (.inl (by simp)) hposition
  awake herrors := by simp at herrors

theorem moves_of_goes
    (h : Statement.LeafTurn (w.site stop) w.arena first taken (some next) (.error e) b)
    (hgoes : e.abortsBlock = false) (hresyncs : Recovery.Resyncs w.nested dropped look)
    (hlook : ∀ next ∈ look, Token.frontOf stop left = next)
    (hnext : Token.frontOf stop (dropped ++ left) = next) :
    Moves w first (taken ++ dropped) look (fail e { w with arena := b }) where
  steps stop' left' hlook' := by
    have hfront : Token.frontOf stop' (dropped ++ left') = next :=
      (hresyncs.front hlook' hlook).trans hnext
    obtain ⟨hgives, harena⟩ := h.gives stop' (dropped ++ left') (by simpa using hfront)
    rw [step_of_startsLeaf hmode hleaf, List.append_assoc, take_of_error hgives.outcome_eq,
      giveUp_of_goes hgoes]
    have hrest := hgives.rest_eq
    simp only [Walk.site] at harena hrest ⊢
    rw [harena, hrest]
    exact congrArg (fun left => some (_, left)) (hresyncs.drops stop' left' hlook')
  oneLine := by
    rw [List.append_assoc]
    refine .cons hleaf.1 (.append ?_ hresyncs.oneLine)
    exact Token.oneLine_concat.mp h.oneLine
  stands next hnext _ := by
    obtain hstands | ⟨hstands, -⟩ := hresyncs.stands next hnext
    · exact .inl hstands
    · exact .inr (.inl hstands)
  errors := by
    obtain ⟨-, token, htoken, hposition⟩ := h.failed rfl
    refine .inr ⟨e, rfl, ?_⟩
    rw [List.mem_cons, List.mem_append, Option.mem_toList] at htoken
    obtain rfl | htaken | htoken := htoken
    · exact .first (not_spares_of_startsLeaf hleaf hmode) hposition
    · exact .later ⟨token, List.mem_append_left _ htaken, hposition⟩
    · cases htoken
      -- The token that was looked at is dropped, or it is left in front and spared.
      cases dropped with
      | nil =>
        obtain ⟨next', hnext'⟩ := Option.isSome_iff_exists.mp (hresyncs.seen rfl)
        have hsame : next' = next := (hlook next' hnext').symm.trans hnext
        exact .look hnext' (.inr (hresyncs.stands next' hnext')) (hsame ▸ hposition)
      | cons found dropped =>
        refine .later ⟨found, by simp, ?_⟩
        rw [hposition, ← hnext]
        rfl
  awake _ _ := hmode

theorem exists_moves_of_startsLeaf (stop : Position) (tokens : List Token) :
    ∃ later left look v, tokens = later ++ left ∧
      (∀ next ∈ look, Token.frontOf stop left = next) ∧ Moves w first later look v := by
  obtain ⟨taken, rest, look, outcome, b, rfl, hlook, hturn⟩ :=
    Statement.exists_leafTurn hleaf (w.site stop) w.arena stop tokens
  cases outcome with
  | ok statement => exact ⟨taken, rest, look, _, rfl, hlook, moves_of_ok hleaf hmode hturn⟩
  | error e =>
    cases haborts : e.abortsBlock with
    | true =>
      exact ⟨taken, rest, look, _, rfl, hlook, moves_of_aborts hleaf hmode hturn haborts⟩
    | false =>
      obtain ⟨next, rfl⟩ := Option.isSome_iff_exists.mp (hturn.failed rfl).1
      obtain ⟨dropped, left, look, rfl, hlook', hresyncs⟩ :=
        Recovery.exists_resyncs w.nested stop rest
      exact ⟨taken ++ dropped, left, look, _, by simp, hlook',
        moves_of_goes hleaf hmode hturn haborts hresyncs hlook' (hlook next rfl)⟩

end leaf

/-- Every step in front of a token is a move. -/
theorem exists_moves (w : Walk) (stop : Position) (tokens : List Token)
    (hinput : first.kind ≠ .endOfInput) :
    ∃ later left look v, tokens = later ++ left ∧
      (∀ next ∈ look, Token.frontOf stop left = next) ∧ Moves w first later look v := by
  -- Most steps take the first token and are over.
  have single {v : Walk} (h : Moves w first [] none v) :
      ∃ later left look v, tokens = later ++ left ∧
        (∀ next ∈ look, Token.frontOf stop left = next) ∧ Moves w first later look v :=
    ⟨[], tokens, none, v, rfl, by simp, h⟩
  cases hmode : w.mode with
  | reading =>
    by_cases hblank : first.kind = .newline ∨ first.kind = .hash
    · exact single (.single (fun _ _ => step_of_blank hmode hblank) (.inl rfl) id)
    by_cases hleft : first.kind = .leftBrace
    · exact single (.single (fun _ _ => step_of_leftBrace hmode hleft) (.inl rfl) id)
    by_cases hright : first.kind = .rightBrace
    · cases hnested : w.nested with
      | true =>
        obtain ⟨later, left, look, v, htokens, hlook, h⟩ := exists_closes hnested stop tokens
        exact ⟨later, left, look, v, htokens, hlook,
          h.moves hright fun _ _ => step_of_closed hmode hright hnested⟩
      | false =>
        refine single (.single (fun _ _ => step_of_stray hmode hright hnested) (.inr ?_) id)
        refine ⟨.unmatched first, rfl, ?_, rfl⟩
        simp [Spares, hmode, hinput, hnested]
    · rw [not_or] at hblank
      exact exists_moves_of_startsLeaf ⟨hblank.1, hblank.2, hinput, hleft, hright⟩ hmode stop tokens
  | skipping depth =>
    have hasleep (v : Walk) : w.mode = .reading → v.mode = .reading := by simp [hmode]
    by_cases hleft : first.kind = .leftBrace
    · exact single (.single (fun _ _ => step_of_skipped_leftBrace hmode hleft) (.inl rfl)
        (hasleep _))
    by_cases hright : first.kind = .rightBrace
    · cases hinside : w.nested && decide (depth = 0) with
      | true =>
        rw [Bool.and_eq_true, decide_eq_true_eq] at hinside
        obtain ⟨hnested, hdepth⟩ := hinside
        obtain ⟨later, left, look, v, htokens, hlook, h⟩ := exists_closes hnested stop tokens
        exact ⟨later, left, look, v, htokens, hlook,
          h.moves hright fun _ _ => step_of_skipped_closed hmode hright hnested hdepth⟩
      | false =>
        exact single (.single (fun _ _ => step_of_skipped_rightBrace hmode hright hinside)
          (.inl rfl) (hasleep _))
    · exact single (.single (fun _ _ => step_of_skipped hmode hinput hleft hright) (.inl rfl)
        (hasleep _))

end Walk

/-! ## Whole lines -/

/-- The tokens are those of whole lines: the end of input is not among them, and the
last of them ends a line. -/
structure Token.WholeLines (tokens : List Token) : Prop where
  goesOn : ∀ token ∈ tokens, token.kind ≠ .endOfInput
  ended : ∀ last, tokens.getLast? = some last → last.kind = .newline

namespace Token

theorem WholeLines.nil : WholeLines [] :=
  ⟨by simp, by simp⟩

theorem WholeLines.append {tokens later : List Token} (h : WholeLines tokens)
    (hlater : WholeLines later) : WholeLines (tokens ++ later) where
  goesOn token htoken := (List.mem_append.mp htoken).elim (h.goesOn token) (hlater.goesOn token)
  ended last hlast := by
    rw [List.getLast?_append] at hlast
    cases hend : later.getLast? with
    | none =>
      rw [hend] at hlast
      exact h.ended last hlast
    | some last' =>
      rw [hend] at hlast
      cases hlast
      exact hlater.ended _ hend

theorem WholeLines.of_append (taken : List Token) {left : List Token}
    (h : WholeLines (taken ++ left)) : WholeLines left where
  goesOn token htoken := h.goesOn token (List.mem_append_right taken htoken)
  ended last hlast := h.ended last (by simp [List.getLast?_append, hlast])

/-- What is seen of whole lines without passing a line end is followed by more. -/
theorem WholeLines.left_ne_nil (taken : List Token) {left : List Token}
    (h : WholeLines (taken ++ left)) (hline : ∀ token ∈ taken, token.kind ≠ .newline)
    (htaken : taken ≠ []) : left ≠ [] := by
  rintro rfl
  rw [List.append_nil] at h
  exact hline _ (List.getLast_mem htaken) (h.ended _ (List.getLast?_eq_some_getLast htaken))

end Token

namespace Walk

variable {w v : Walk} {first : Token} {later rest : List Token}

/-- Inside whole lines a move sees nothing but their tokens. -/
theorem exists_moves_of_wholeLines (w : Walk) (h : Token.WholeLines (first :: tokens)) :
    ∃ later left look v, tokens = later ++ left ∧ Moves w first later look v ∧
      ∀ next ∈ look, left.head? = some next := by
  have hinput : first.kind ≠ .endOfInput := h.goesOn first (List.mem_cons_self)
  obtain ⟨later, left, look, v, rfl, hlook, hmoves⟩ := exists_moves w .start tokens hinput
  refine ⟨later, left, look, v, rfl, hmoves, ?_⟩
  rintro next ⟨⟩
  have hline : ∀ token ∈ first :: later, token.kind ≠ .newline :=
    Token.oneLine_concat.mp hmoves.oneLine
  have hleft : left ≠ [] := Token.WholeLines.left_ne_nil (first :: later) h hline (by simp)
  cases left with
  | nil => exact absurd rfl hleft
  | cons next' left => exact congrArg some (hlook next rfl)

/-- A walk gets over the tokens, whatever comes behind them. -/
def Passes (w : Walk) (tokens : List Token) (v : Walk) : Prop :=
  ∀ stop later, w.run stop (tokens ++ later) = v.run stop later

/-- A move that sees nothing but the tokens is made whatever comes behind them. -/
theorem Moves.steps_behind (h : Moves w first later look v)
    (hlook : ∀ next ∈ look, left.head? = some next) (stop : Position) (behind : List Token) :
    w.step stop (first :: (later ++ (left ++ behind))) = some (v, left ++ behind) := by
  refine h.steps stop (left ++ behind) fun next hnext => ?_
  cases left with
  | nil => cases hlook next hnext
  | cons next' left => exact Option.some.inj (hlook next hnext)

theorem Moves.passes (h : Moves w first later look v)
    (hlook : ∀ next ∈ look, left.head? = some next) {u : Walk} (hleft : v.Passes left u) :
    w.Passes (first :: (later ++ left)) u := by
  intro stop behind
  have hstep := h.steps_behind hlook stop behind
  rw [List.cons_append, List.append_assoc, run_of_step hstep]
  exact hleft stop behind

/-- A walk gets over whole lines, and whatever its moves preserve holds behind them. -/
theorem exists_passes {P : Walk → List Token → Prop}
    (hmoves : ∀ {w first later left look v}, Moves w first later look v →
      (∀ next ∈ look, left.head? = some next) → P w (first :: (later ++ left)) → P v left)
    (h : Token.WholeLines tokens) (hstart : P w tokens) : ∃ v, w.Passes tokens v ∧ P v [] := by
  -- A move takes at least one token.
  induction hn : tokens.length using Nat.strongRecOn generalizing w tokens with
  | ind n ih =>
    cases tokens with
    | nil => exact ⟨w, fun _ _ => rfl, hstart⟩
    | cons first tokens =>
      obtain ⟨later, left, look, v, rfl, hmove, hlook⟩ := exists_moves_of_wholeLines w h
      have hshorter : left.length < n := by
        simp only [← hn, List.length_cons, List.length_append]
        omega
      have hleft : Token.WholeLines left := .of_append (first :: later) h
      obtain ⟨u, hpasses, hu⟩ := ih _ hshorter hleft (hmoves hmove hlook hstart) rfl
      exact ⟨u, hmove.passes hlook hpasses, hu⟩

theorem Finds.at_seen {e : SyntaxError} (h : Finds w v first later look e) :
    e.At (first :: (later ++ look.toList)) := by
  cases h with
  | first _ hposition => exact ⟨first, by simp, hposition⟩
  | later hlater => exact hlater.mono (by simp)
  | look hnext _ hposition => exact ⟨_, by simp [Option.mem_def.mp hnext], hposition⟩

/-- A walk that has come from `w` over some of the tokens, with others ahead, has found its
errors at these tokens, and if it found none it still reads. -/
structure Since (w : Walk) (tokens : List Token) (u : Walk) (left : List Token) : Prop where
  ahead : left ⊆ tokens
  errors : ∃ found, u.errors = w.errors ++ found ∧ ∀ e ∈ found, e.At tokens
  awake : u.errors = w.errors → w.mode = .reading → u.mode = .reading

namespace Since

theorem refl (w : Walk) (tokens : List Token) : Since w tokens w tokens :=
  ⟨List.Subset.refl _, ⟨[], by simp⟩, fun _ => id⟩

theorem move {u : Walk} (h : Since w tokens u (first :: (later ++ left)))
    (hmove : Moves u first later look v) (hlook : ∀ next ∈ look, left.head? = some next) :
    Since w tokens v left := by
  obtain ⟨hsub, ⟨found, hfound, hat⟩, hawake⟩ := h
  obtain ⟨hfirst, hsub⟩ := List.cons_subset.mp hsub
  obtain ⟨hlater, hleft⟩ := List.append_subset.mp hsub
  have hseen : first :: (later ++ look.toList) ⊆ tokens := by
    intro token htoken
    rw [List.mem_cons, List.mem_append, Option.mem_toList] at htoken
    obtain rfl | htoken | htoken := htoken
    · exact hfirst
    · exact hlater htoken
    · exact hleft (List.mem_of_mem_head? (hlook token htoken))
  obtain herrors | ⟨e, herrors, hfinds⟩ := hmove.errors
  · refine ⟨hleft, ⟨found, herrors.trans hfound, hat⟩, fun hsame hmode => ?_⟩
    exact hmove.awake herrors (hawake (herrors.symm.trans hsame) hmode)
  · refine ⟨hleft, ⟨found ++ [e], by rw [herrors, hfound, List.append_assoc], ?_⟩, ?_⟩
    · intro e' he'
      obtain he' | he' := List.mem_append.mp he'
      · exact hat e' he'
      · cases List.mem_singleton.mp he'
        exact hfinds.at_seen.mono hseen
    · intro hsame
      simp [herrors, hfound] at hsame

end Since

theorem exists_passes_of_wholeLines (w : Walk) (h : Token.WholeLines tokens) :
    ∃ v, w.Passes tokens v ∧ Since w tokens v [] := by
  have hmoves {u first later left look v} (hmove : Moves u first later look v)
      (hlook : ∀ next ∈ look, left.head? = some next)
      (hsince : Since w tokens u (first :: (later ++ left))) : Since w tokens v left :=
    hsince.move hmove hlook
  exact exists_passes hmoves h (.refl w tokens)

/-- Tokens that are no braces are dropped without a trace. -/
theorem passes_of_skipping {depth : Nat} (hmode : w.mode = .skipping depth)
    (hbrace : ∀ token ∈ tokens, token.kind ≠ .endOfInput ∧ token.kind ≠ .leftBrace ∧
      token.kind ≠ .rightBrace) : w.Passes tokens w := by
  intro stop rest
  induction tokens with
  | nil => rfl
  | cons token tokens ih =>
    obtain ⟨⟨hinput, hleft, hright⟩, hlater⟩ := List.forall_mem_cons.mp hbrace
    rw [List.cons_append, run_of_step (step_of_skipped hmode hinput hleft hright)]
    exact ih hlater

/-! ## The end of input -/

theorem run_nil_of_root (h : w.outer = []) : w.run stop [] = w := by
  refine run_of_step_none ?_
  simp [step, atEnd, nested, h]

theorem run_nil_of_nested {parent : OpenBlock} {outer : List OpenBlock}
    (h : w.outer = parent :: outer) :
    w.run stop [] =
      (add (.block w.block.position w.block.table w.block.body)
        { w.report (Recovery.unclosed stop) with mode := .reading, block := parent, outer }).run
          stop [] := by
  have hstep : w.step stop [] = some ((w.report (Recovery.unclosed stop)).leave []) := by
    simp [step, atEnd, nested, h]
  have houter : (w.report (Recovery.unclosed stop)).outer = parent :: outer := h
  rw [run_of_step hstep, leave_of_ends houter .input]
  rfl

/-- Every block that is open at the end of input is missed there. -/
theorem errors_run_nil (stop : Position) (w : Walk) :
    (w.run stop []).errors =
      w.errors ++ List.replicate w.outer.length (Recovery.unclosed stop) := by
  induction houter : w.outer generalizing w with
  | nil => simp [run_nil_of_root houter]
  | cons parent outer ih =>
    rw [run_nil_of_nested houter, ih _ rfl]
    simp [List.replicate_succ]

/-- Without an error the end of input is met outside of every block. -/
theorem run_nil_of_noErrors (h : (w.run stop []).errors = []) :
    w.errors = [] ∧ w.outer = [] ∧ ∀ stop, w.run stop [] = w := by
  rw [errors_run_nil, List.append_eq_nil_iff, List.replicate_eq_nil_iff] at h
  obtain ⟨hnone, hclosed⟩ := h
  have houter : w.outer = [] := List.length_eq_zero_iff.mp hclosed
  exact ⟨hnone, houter, fun _ => run_nil_of_root houter⟩

end Walk

end LineScript
