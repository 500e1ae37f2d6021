import LineScript.Proofs.Abandonment
import LineScript.Proofs.Reading.Settling

/-!
# Where a statement may begin

Behind a line end or an opening brace a statement may begin. A walk that finds no error
comes to such a place between two statements, and it gets there in the same way whatever
tokens come behind (`Walk.reads_or_stops`), so that these tokens can be exchanged. A
walk that stops before gets to see none of them.
-/

namespace LineScript

/-- A statement may begin behind the tokens: there are none, or the last of them ends a line
or opens a block. -/
def Token.StatementMayFollow (tokens : List Token) : Prop :=
  ∀ last ∈ tokens.getLast?, last.kind = .newline ∨ last.kind = .leftBrace

section ends

variable {tokens front more next taken left : List Token} {first token : Token}

theorem Token.StatementMayFollow.of_suffix (h : StatementMayFollow tokens)
    (hsuffix : left <:+ tokens) : StatementMayFollow left := by
  intro last hlast
  obtain ⟨taken, rfl⟩ := hsuffix
  exact h last (by simp [List.getLast?_append, Option.mem_def.mp hlast])

/-- Tokens inside a statement do not reach the place where the next one begins. -/
theorem Token.StatementMayFollow.exists_left (h : StatementMayFollow (first :: front))
    (hinside : ∀ token ∈ first :: taken, token.Inside) (htokens : front ++ more = taken ++ left) :
    ∃ token rest, front = taken ++ token :: rest ∧ left = token :: rest ++ more := by
  -- Otherwise the last token in front would be one of them.
  have hlonger (rest : List Token) (hrest : first :: taken = first :: front ++ rest) : False := by
    obtain ⟨last, hlast⟩ : ∃ last, (first :: front).getLast? = some last :=
      ⟨_, List.getLast?_eq_some_getLast (by simp)⟩
    have hmem : last ∈ first :: taken := by
      rw [hrest]
      exact List.mem_append_left _ (List.mem_of_getLast? hlast)
    obtain hkind | hkind := h last hlast
    · exact (hinside last hmem).1 hkind
    · exact (hinside last hmem).2 hkind
  obtain ⟨rest, rfl, rfl⟩ | ⟨rest, rfl, rfl⟩ := List.append_eq_append_iff.mp htokens
  · exact (hlonger rest rfl).elim
  · cases rest with
    | nil =>
      rw [List.append_nil] at hlonger
      exact (hlonger [] (by simp)).elim
    | cons token rest => exact ⟨token, rest, rfl, rfl⟩

/-- What ends in front of a token sees no more than this token. -/
theorem Ends.exists_left (h : Ends (token :: front ++ more) next) :
    ∃ left, left <:+ token :: front ∧ next = left ++ more ∧
      ∀ more, Ends (token :: front ++ more) (left ++ more) := by
  cases h with
  | line hline => exact ⟨front, List.suffix_cons _ _, rfl, fun _ => .line hline⟩
  | before hkind => exact ⟨token :: front, List.suffix_rfl, rfl, fun _ => .before hkind⟩

theorem Ends.endsBefore (h : Ends tokens next) (stop : Position) :
    Statement.endsBefore (Token.frontOf stop tokens).kind = true := by
  cases h with
  | input => rfl
  | line hline =>
    rw [Token.frontOf_cons, hline]
    rfl
  | before hkind =>
    rw [Token.frontOf_cons]
    obtain hkind | hkind | hkind := hkind <;> rw [hkind] <;> rfl

end ends

namespace Walk

variable {w v : Walk} {stop stop' : Position} {first : Token}
variable {front more taken tokens next : List Token} {statement : Statement} {b : Arena}

/-- A statement is read wherever it may end behind its tokens. -/
theorem step_of_settled (hmode : w.mode = .reading) (hleaf : first.StartsLeaf)
    (hsettled : Statement.Settled (w.site stop) w.arena first taken statement b)
    (ends : Ends tokens next) (stop' : Position) :
    w.step stop' (first :: (taken ++ tokens)) =
      some (add (.leaf statement) { w with arena := b }, next) := by
  obtain ⟨hgives, harena⟩ := hsettled.gives stop' tokens (ends.endsBefore stop')
  obtain ⟨hread, harena⟩ := Statement.read_gives hleaf (Statement.finish_of_ends hgives ends) harena
  have hleft := hread.rest_eq
  simp only [Walk.site] at harena hleft
  rw [step_of_startsLeaf hmode hleaf, take_of_ok hread.outcome_eq]
  simp only [Walk.site, harena, hleft]

/-- In front of the tokens the walk takes a step that hangs on nothing behind them. It
finds no error and leaves some of the tokens. -/
structure Advances (w : Walk) (first : Token) (front : List Token) (v : Walk)
    (left : List Token) : Prop where
  steps : ∀ stop more, w.step stop (first :: (front ++ more)) = some (v, left ++ more)
  suffix : left <:+ front
  mode : v.mode = .reading
  errors : v.errors = w.errors

section advance

variable (hmode : w.mode = .reading) (hfront : Token.StatementMayFollow (first :: front))

include hmode hfront

theorem exists_advance_of_closed (hright : first.kind = .rightBrace) (hnested : w.nested = true)
    (hstep : w.step stop (first :: (front ++ more)) = some (v, next))
    (hnone : v.errors = w.errors) : ∃ left, Advances w first front v left := by
  obtain ⟨parent, outer, houter, ends, rfl⟩ := closes_of_step hmode hright hstep hnone
  cases front with
  | nil =>
    obtain hkind | hkind := hfront first rfl
    · cases hright.symm.trans hkind
    · cases hright.symm.trans hkind
  | cons token front =>
    obtain ⟨left, hleft, -, hends⟩ := Ends.exists_left ends
    refine ⟨left, fun stop' more' => ?_, hleft, rfl, rfl⟩
    rw [step_of_closed hmode hright hnested, leave_of_ends houter (hends more')]

theorem exists_advance_of_startsLeaf (hleaf : first.StartsLeaf)
    (hstep : w.step stop (first :: (front ++ more)) = some (v, next))
    (hnone : v.errors = w.errors) : ∃ left, Advances w first front v left := by
  obtain ⟨statement, hread, hrest, rfl⟩ := takes_of_step hmode hleaf hstep hnone
  rw [Statement.read_eq_readUnfinished hleaf] at hread hrest ⊢
  obtain ⟨hout, ends⟩ := StatementReading.finish_eq_ok_iff.mp ⟨hread, hrest⟩
  have hgives : (Statement.readUnfinished { w.site stop with stop } w.arena first
      (front ++ more)).Gives (.ok statement) _ := ⟨hout, rfl⟩
  obtain ⟨taken, htaken, hsettled⟩ := Statement.settles_readUnfinished hgives
  have hinside : ∀ token ∈ first :: taken, token.Inside :=
    List.forall_mem_cons.mpr ⟨⟨hleaf.1, hleaf.2.2.2.1⟩, hsettled.inside⟩
  obtain ⟨token, rest, rfl, hleft⟩ := hfront.exists_left hinside htaken
  obtain ⟨left, hsuffix, -, hends⟩ := Ends.exists_left (hleft ▸ ends)
  simp only [StatementReading.announce_arena, StatementReading.finish_arena]
  refine ⟨left, fun stop' more' => ?_, hsuffix.trans (List.suffix_append _ _), hmode, rfl⟩
  rw [List.append_assoc]
  exact step_of_settled hmode hleaf hsettled (hends more') stop'

/-- A walk that finds no error stops in front of the tokens, or takes some of them. -/
theorem stops_or_advances (hnone : (w.run stop (first :: (front ++ more))).errors = w.errors) :
    (∀ stop more, w.step stop (first :: (front ++ more)) = none) ∨
      ∃ v left, Advances w first front v left := by
  have hstep {p : Walk × List Token} (h : w.step stop (first :: (front ++ more)) = some p) :
      p.1.errors = w.errors := by
    have hlater := errors_prefix_run stop p.1 p.2
    rw [← run_of_step h, hnone] at hlater
    exact hlater.eq_of_length_le (errors_prefix_step h).length_le
  have single {v : Walk} (h : ∀ stop tokens, w.step stop (first :: tokens) = some (v, tokens))
      (hreading : v.mode = .reading) : ∃ v left, Advances w first front v left :=
    ⟨v, front, fun stop more => h stop _, List.suffix_rfl, hreading, hstep (h stop _)⟩
  by_cases hblank : first.kind = .newline ∨ first.kind = .hash
  · exact .inr (single (fun _ _ => step_of_blank hmode hblank) hmode)
  by_cases hinput : first.kind = .endOfInput
  · have hend (stop : Position) (more : List Token) : w.step stop (first :: (front ++ more)) = _ :=
      step_of_stopped hmode hinput
    cases hnested : w.nested with
    | false =>
      refine .inl fun stop more => ?_
      rw [hend, atEnd, hnested, if_neg Bool.false_ne_true]
    | true =>
      have hmisses := hend stop more
      rw [atEnd, hnested, if_pos rfl] at hmisses
      have hsame := hstep hmisses
      obtain hleave | ⟨found, hleave⟩ :=
        leave_errors (w.report (Recovery.unclosed first.position)) (first :: (front ++ more))
      · simp [hleave] at hsame
      · simp [hleave] at hsame
  by_cases hleft : first.kind = .leftBrace
  · exact .inr (single (fun _ _ => step_of_leftBrace hmode hleft) hmode)
  by_cases hright : first.kind = .rightBrace
  · cases hnested : w.nested with
    | false =>
      exact .inr (single (fun _ _ => step_of_stray hmode hright hnested) hmode)
    | true =>
      have hclosed : w.step stop (first :: (front ++ more)) = _ :=
        step_of_closed hmode hright hnested
      exact .inr ⟨_, exists_advance_of_closed hmode hfront hright hnested hclosed (hstep hclosed)⟩
  · rw [not_or] at hblank
    have hleaf : first.StartsLeaf := ⟨hblank.1, hblank.2, hinput, hleft, hright⟩
    have htaken : w.step stop (first :: (front ++ more)) = _ := step_of_startsLeaf hmode hleaf
    exact .inr ⟨_, exists_advance_of_startsLeaf hmode hfront hleaf htaken (hstep htaken)⟩

end advance

/-- The walk has passed the tokens without an error and reads on. -/
structure Reads (w : Walk) (tokens : List Token) (v : Walk) : Prop where
  passes : w.Passes tokens v
  mode : v.mode = .reading
  errors : v.errors = w.errors
  marked : v.Marked

/-- A walk that finds no error comes to a place where a statement may begin and reads on, or
it stops before. Neither hangs on what comes behind that place. -/
theorem reads_or_stops (hmode : w.mode = .reading) (hmarked : w.Marked)
    (hfront : Token.StatementMayFollow front)
    (hnone : (w.run stop (front ++ more)).errors = w.errors) :
    (∃ v, w.Reads front v) ∨ ∃ v, ∀ stop more, w.run stop (front ++ more) = v := by
  -- Every step leaves fewer of the tokens.
  induction hn : front.length using Nat.strongRecOn generalizing w front with
  | ind n ih =>
    cases front with
    | nil => exact .inl ⟨w, fun _ _ => rfl, hmode, rfl, hmarked⟩
    | cons first front =>
      obtain hstops | ⟨v, left, h⟩ := stops_or_advances hmode hfront hnone
      · exact .inr ⟨w, fun stop more => run_of_step_none (hstops stop more)⟩
      have hrun (stop : Position) (more : List Token) :
          w.run stop (first :: front ++ more) = v.run stop (left ++ more) :=
        run_of_step (h.steps stop more)
      rw [hrun, ← h.errors] at hnone
      have hshorter : left.length < n := by
        have hlength := h.suffix.length_le
        rw [List.length_cons] at hn
        omega
      have hleft := hfront.of_suffix (h.suffix.trans (List.suffix_cons first front))
      have hmarked' : v.Marked := hmarked.step (h.steps stop [])
      obtain ⟨u, hu⟩ | ⟨u, hu⟩ := ih _ hshorter h.mode hmarked' hleft hnone rfl
      · refine .inl ⟨u, fun stop more => ?_, hu.mode, hu.errors.trans h.errors, hu.marked⟩
        rw [hrun]
        exact hu.passes stop more
      · refine .inr ⟨u, fun stop more => ?_⟩
        rw [hrun]
        exact hu stop more

end Walk

end LineScript
