import LineScript.Proofs.Layout

/-!
# The order of errors

A walk reports its errors in the order of the text. Some are found at tokens that were
taken and some at the token that the walk stands in front of; no error is found twice
at one token, because a token at which an error was found is passed over, or it is one
that begins no statement (`Walk.InOrder`). Only the blocks that are open at the end of
input are missed all at one position, which is behind all others. A text that cannot be
scanned has one error for each line that is at fault, and these are in order too.
-/

namespace LineScript

namespace Walk

variable {Inside : Position → Prop} {w v : Walk} {first : Token} {later left tokens : List Token}
variable {look : Option Token}

/-- The errors and the tokens that are still to come stand one behind the other, all of
them inside the text. An error and the next token share a position only if the walk is
not going to report another error there. -/
structure InOrder (Inside : Position → Prop) (w : Walk) (tokens : List Token) : Prop where
  reported : w.errors.Pairwise fun e later => e.position.Before later.position
  ahead : tokens.Pairwise fun token later => token.position.Before later.position
  found : ∀ e ∈ w.errors, ∀ next ∈ tokens.head?,
    e.position.Before next.position ∨ e.position = next.position ∧ w.Spares next
  errors_inside : ∀ e ∈ w.errors, Inside e.position
  tokens_inside : ∀ token ∈ tokens, Inside token.position

/-- Errors stand before all tokens but the next one. -/
theorem InOrder.before_later (h : InOrder Inside w (first :: tokens)) {e : SyntaxError}
    (he : e ∈ w.errors) {token : Token} (htoken : token ∈ tokens) :
    e.position.Before token.position := by
  have hfirst := (List.pairwise_cons.mp h.ahead).1 token htoken
  obtain hbefore | ⟨hsame, -⟩ := h.found e he first rfl
  · exact hbefore.trans hfirst
  · exact hsame ▸ hfirst

section moves

variable (h : InOrder Inside w (first :: (later ++ left))) (hmove : Moves w first later look v)
variable (hlook : ∀ next ∈ look, left.head? = some next) {e : SyntaxError}

include h hlook

/-- A move finds its error behind all errors that were found before. -/
theorem InOrder.before_finds (hfinds : Finds w v first later look e) {e' : SyntaxError}
    (he' : e' ∈ w.errors) : e'.position.Before e.position := by
  cases hfinds with
  | first hspares hposition =>
    obtain hbefore | ⟨-, hspared⟩ := h.found e' he' first rfl
    · exact hposition ▸ hbefore
    · exact absurd hspared hspares
  | later hat =>
    obtain ⟨token, htoken, hposition⟩ := hat
    exact hposition ▸ h.before_later he' (List.mem_append_left left htoken)
  | look hnext _ hposition =>
    have hleft := List.mem_of_mem_head? (hlook _ hnext)
    exact hposition ▸ h.before_later he' (List.mem_append_right later hleft)

/-- The error of a move stands before the next token, or at it if it is spared. -/
theorem InOrder.finds_next (hfinds : Finds w v first later look e) {next : Token}
    (hnext : next ∈ left.head?) :
    e.position.Before next.position ∨ e.position = next.position ∧ v.Spares next := by
  have hleft : next ∈ left := List.mem_of_mem_head? hnext
  obtain ⟨hfirst, htokens⟩ := List.pairwise_cons.mp h.ahead
  cases hfinds with
  | first _ hposition => exact .inl (hposition ▸ hfirst next (List.mem_append_right later hleft))
  | later hat =>
    obtain ⟨token, htoken, hposition⟩ := hat
    exact .inl (hposition ▸ (List.pairwise_append.mp htokens).2.2 token htoken next hleft)
  | look hnext' hspares hposition =>
    cases (hlook _ hnext').symm.trans hnext
    exact .inr ⟨hposition, hspares⟩

theorem InOrder.finds_inside (hfinds : Finds w v first later look e) : Inside e.position := by
  cases hfinds with
  | first _ hposition => exact hposition ▸ h.tokens_inside first (by simp)
  | later hat =>
    obtain ⟨token, htoken, hposition⟩ := hat
    exact hposition ▸ h.tokens_inside token (by simp [htoken])
  | @look next hnext _ hposition =>
    have hleft := List.mem_of_mem_head? (hlook _ hnext)
    exact hposition ▸ h.tokens_inside next (by simp [hleft])

include hmove

theorem InOrder.moves : InOrder Inside v left := by
  obtain ⟨-, htokens⟩ := List.pairwise_cons.mp h.ahead
  have hinside : ∀ token ∈ left, Inside token.position := by
    intro token htoken
    exact h.tokens_inside token (by simp [htoken])
  have hold : ∀ e ∈ w.errors, ∀ next ∈ left.head?, e.position.Before next.position := by
    intro e he next hnext
    exact h.before_later he (List.mem_append_right later (List.mem_of_mem_head? hnext))
  obtain herrors | ⟨e, herrors, hfinds⟩ := hmove.errors
  · refine ⟨?_, (List.pairwise_append.mp htokens).2.1, ?_, ?_, hinside⟩ <;> rw [herrors]
    · exact h.reported
    · exact fun e he next hnext => .inl (hold e he next hnext)
    · exact h.errors_inside
  · refine ⟨?_, (List.pairwise_append.mp htokens).2.1, ?_, ?_, hinside⟩ <;> rw [herrors]
    · refine List.pairwise_append.mpr ⟨h.reported, List.pairwise_singleton _ _, ?_⟩
      intro e' he' later hlater
      cases List.mem_singleton.mp hlater
      exact h.before_finds hlook hfinds he'
    · intro e' he' next hnext
      obtain he' | he' := List.mem_append.mp he'
      · exact .inl (hold e' he' next hnext)
      · cases List.mem_singleton.mp he'
        exact h.finds_next hlook hfinds hnext
    · intro e' he'
      obtain he' | he' := List.mem_append.mp he'
      · exact h.errors_inside e' he'
      · cases List.mem_singleton.mp he'
        exact h.finds_inside hlook hfinds

end moves

/-- The errors of a walk over a text are in order up to those at the end of input. -/
theorem errors_run_start (stop : Position) (hlines : Token.WholeLines tokens)
    (htokens : tokens.Pairwise fun token later => token.position.Before later.position)
    (hinside : ∀ token ∈ tokens, Inside token.position) :
    ∃ found n, (start.run stop tokens).errors =
        found ++ List.replicate n (Recovery.unclosed stop) ∧
      found.Pairwise (fun e later => e.position.Before later.position) ∧
      ∀ e ∈ found, Inside e.position := by
  have hstart : InOrder Inside start tokens :=
    ⟨.nil, htokens, by simp [start], by simp [start], hinside⟩
  have hmoves : ∀ {w first later left look v}, Moves w first later look v →
      (∀ next ∈ look, left.head? = some next) → InOrder Inside w (first :: (later ++ left)) →
        InOrder Inside v left := fun hmove hlook h => h.moves hmove hlook
  obtain ⟨v, hpasses, hend⟩ := exists_passes hmoves hlines hstart
  have hrun := hpasses stop []
  rw [List.append_nil] at hrun
  rw [hrun, errors_run_nil]
  exact ⟨v.errors, v.outer.length, rfl, hend.reported, hend.errors_inside⟩

end Walk

namespace Program

theorem parse_errors_of_lexical {lines : List String} (h : (Cursor.ofLines lines).2 ≠ []) :
    (parse lines).errors = (Cursor.ofLines lines).2.map .lexical := by
  unfold parse
  simp only
  rw [if_neg (by simpa using h)]

/-- The errors of a program come in the order of its text. Only at the end, and only at
the end of input, several errors may share a position, for the blocks that are still
open there. No error is outside the text: it is found at a character or at the end of a
line. -/
theorem errors_parse_inOrder (lines : List String) :
    ∃ found closers, (parse lines).errors = found ++ closers ∧
      found.Pairwise (fun e later => e.position.Before later.position) ∧
      (∀ e ∈ closers,
        e = .grammar (Recovery.unclosed (Cursor.ofLines lines).1.closing.position)) ∧
      (∀ e ∈ found, ¬ (Cursor.ofLines lines).1.closing.position.Before e.position) ∧
      ∀ e ∈ (parse lines).errors, e.position.Within lines := by
  let stop := (Cursor.ofLines lines).1.closing.position
  by_cases hlexical : (Cursor.ofLines lines).2 = []
  · obtain ⟨found, n, herrors, horder, hfound⟩ :=
      Walk.errors_run_start stop (Cursor.wholeLines_tokensFrom 1 lines)
        (Cursor.inOrder_tokensFrom 1 lines) fun _ h => Cursor.position_tokensFrom h
    have hparse : (parse lines).errors =
        found.map .grammar ++ List.replicate n (.grammar (Recovery.unclosed stop)) := by
      rw [(parse_of_scanned hlexical).2, herrors, List.map_append, List.map_replicate]
    refine ⟨_, _, hparse, List.pairwise_map.mpr horder, ?_, ?_, ?_⟩
    · exact fun e he => List.eq_of_mem_replicate he
    · intro e he
      obtain ⟨e', he', rfl⟩ := List.mem_map.mp he
      exact Cursor.not_closing_before (hfound e' he')
    · intro e he
      rw [hparse, List.mem_append] at he
      obtain he | he := he
      · obtain ⟨e', he', rfl⟩ := List.mem_map.mp he
        exact hfound e' he'
      · obtain ⟨hn, rfl⟩ := List.mem_replicate.mp he
        refine Cursor.within_closing ?_
        rintro rfl
        -- Without a line no block is opened, so none is missed.
        rw [Cursor.tokensFrom_nil, Walk.run_nil_of_root rfl] at herrors
        exact hn ((List.replicate_eq_nil_iff _).mp (List.append_eq_nil_iff.mp herrors.symm).2)
  · have hparse := parse_errors_of_lexical hlexical
    rw [Cursor.errors_ofLines] at hparse
    have hinside : ∀ e ∈ (parse lines).errors, e.position.Within lines := by
      intro e he
      rw [hparse] at he
      obtain ⟨e', he', rfl⟩ := List.mem_map.mp he
      exact Cursor.position_errorsFrom he'
    refine ⟨(parse lines).errors, [], by simp, ?_, by simp, ?_, hinside⟩
    · rw [hparse]
      exact List.pairwise_map.mpr (Cursor.inOrder_errorsFrom 1 lines)
    · exact fun e he => Cursor.not_closing_before (hinside e he)

end Program

end LineScript
