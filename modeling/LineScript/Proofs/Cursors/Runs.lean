import LineScript.Proofs.Cursors.Parser

/-!
# Calls that come back

`Parser.Runs` says that a call comes back, with a result and with the parser as it is then. There
is one rule for each way in which calls are put together. A cursor only ever moves over the tokens
that it was made of, and `Cursor.Reaches` says that it did not move back and which tokens are left.
-/

namespace LineScript

/-! ## Cursors -/

namespace Cursor

variable {c d e : Cursor} {token : Token} {rest left : List Token}

theorem peek_of_cons (h : c.ahead = token :: rest) : c.peek = token := by
  have hhead : c.tokens[c.position]? = some token := by
    rw [← List.head?_drop, ← ahead, h, List.head?_cons]
  rw [peek, hhead, Option.getD_some]

theorem peek_of_nil (h : c.ahead = []) : c.peek = c.closing := by
  have hhead : c.tokens[c.position]? = none := by
    rw [← List.head?_drop, ← ahead, h, List.head?_nil]
  rw [peek, hhead, Option.getD_none]

@[simp] theorem ahead_pop (c : Cursor) : c.pop.2.ahead = c.ahead.tail :=
  List.tail_drop.symm

/-- An end of input closes the tokens. -/
def Closed (c : Cursor) : Prop :=
  c.closing.kind = .endOfInput

/-- The cursor `c` can move to `d` without going back, where these tokens are ahead. -/
structure Reaches (c d : Cursor) (left : List Token) : Prop where
  tokens : d.tokens = c.tokens
  closing : d.closing = c.closing
  forward : c.position ≤ d.position
  ahead : d.ahead = left

namespace Reaches

theorem stay (h : c.ahead = rest) : c.Reaches c rest :=
  ⟨rfl, rfl, Nat.le_refl _, h⟩

theorem trans (h : c.Reaches d rest) (h' : d.Reaches e left) : c.Reaches e left :=
  ⟨h'.tokens.trans h.tokens, h'.closing.trans h.closing, Nat.le_trans h.forward h'.forward,
    h'.ahead⟩

theorem pop (h : c.Reaches d (token :: rest)) : c.Reaches d.pop.2 rest :=
  ⟨h.tokens, h.closing, Nat.le_succ_of_le h.forward, by rw [ahead_pop, h.ahead, List.tail_cons]⟩

/-- Behind the last token nothing is ahead, however far the cursor moves. -/
theorem beyond (h : c.ahead = []) : c.Reaches c.pop.2 [] :=
  ⟨rfl, rfl, Nat.le_succ _, by rw [ahead_pop, h, List.tail_nil]⟩

theorem closed (h : c.Reaches d left) (hc : c.Closed) : d.Closed := by
  rw [Closed, h.closing]
  exact hc

/-- A cursor with fewer tokens ahead was moved. -/
theorem lt_of_length_lt (h : c.Reaches d left) (hlength : left.length < c.ahead.length) :
    c.position < d.position := by
  refine Nat.lt_of_le_of_ne h.forward ?_
  intro hposition
  have hleft := h.ahead
  rw [Cursor.ahead, h.tokens, ← hposition, ← Cursor.ahead] at hleft
  rw [hleft] at hlength
  exact Nat.lt_irrefl _ hlength

end Reaches

end Cursor

/-! ## Calls -/

namespace Parser

variable {α β : Type} {p q r : Parser} {e : SyntaxError} {a : α} {b : β}
variable {outcome : Except SyntaxError α} {outcome' : Except SyntaxError β}

/-- The parser with another cursor. -/
def moved (p : Parser) (c : Cursor) : Parser :=
  { p with cursor := c }

theorem moved_cursor (p : Parser) (c : Cursor) : (p.moved c).cursor = c := rfl

theorem site_popped (p : Parser) : (p.moved p.cursor.pop.2).site = p.site := rfl

/-- Called with the parser `p`, the step comes back with the result `a` and the parser `q`. -/
def Runs (step : Step α) (p : Parser) (a : α) (q : Parser) : Prop :=
  step.run p = some (a, q)

namespace Runs

section step

variable {step : Step α} {next : α → Step β}

theorem unique {a' : α} {q' : Parser} (h : Runs step p a q) (h' : Runs step p a' q') :
    a = a' ∧ q = q' := by
  rw [Runs, h] at h'
  simpa using h'

theorem pure (a : α) (p : Parser) : Runs (Pure.pure a) p a p := rfl

theorem bind (first : Runs step p a q) (later : Runs (next a) q b r) :
    Runs (step >>= next) p b r := by
  have hrun : (step >>= next).run p = (step.run p).bind fun ⟨a, q⟩ => (next a).run q := rfl
  rw [Runs, hrun, first]
  exact later

theorem get (p : Parser) : Runs MonadState.get p p p := rfl

theorem peek (p : Parser) : Runs Parser.peek p p.cursor.peek p := rfl

theorem pop (p : Parser) : Runs Parser.pop p p.cursor.peek (p.moved p.cursor.pop.2) := rfl

end step

section routine

variable {routine : Routine α} {next : α → Routine β}

/-- What comes behind a routine that succeeds. -/
theorem andThen (first : Runs routine.run p (.ok a) q) (later : Runs (next a).run q outcome' r) :
    Runs (routine >>= next).run p outcome' r :=
  bind first later

/-- A failure skips what comes behind. -/
theorem failed (first : Runs routine.run p (.error e) q) :
    Runs (routine >>= next).run p (.error e) q :=
  bind first (pure _ q)

/-- A step never fails. -/
theorem lift {step : Step α} (h : Runs step p a q) :
    Runs (liftM step : Routine α).run p (.ok a) q := by
  have hrun : (liftM step : Routine α).run.run p =
      (step.run p).bind fun ⟨a, q⟩ => some (.ok a, q) := rfl
  rw [Runs, hrun, h]
  rfl

theorem done (a : α) (p : Parser) : Runs (Pure.pure a : Routine α).run p (.ok a) p := rfl

theorem fail (e : SyntaxError) (p : Parser) :
    Runs (throw e : Routine α).run p (.error e) p := rfl

theorem settle {given : Except SyntaxError α} (h : given = outcome) (p : Parser) :
    Runs (Parser.settle given).run p outcome p :=
  h ▸ rfl

theorem state (p : Parser) : Runs (MonadState.get : Routine Parser).run p (.ok p) p := rfl

theorem attempt (h : Runs routine.run p outcome q) :
    Runs (Parser.attempt routine).run p (.ok outcome) q :=
  lift h

/-- A result is put into a larger one. -/
theorem map (h : Runs routine.run p outcome q) (f : α → β) :
    Runs (routine >>= fun a => Pure.pure (f a)).run p (outcome.map f) q := by
  cases outcome with
  | ok a => exact h.andThen (done (f a) q)
  | error e => exact h.failed

end routine

end Runs

end Parser

end LineScript
