import LineScript.Program

/-!
# The rules of reading

`BodyReads` lists what can happen while a body is read, one rule for each way to
take tokens: blank tokens, the end of the body, a statement that is read, and a
statement that is given up. Every reading of a body follows these rules
(`bodyReads_readBody`), so a property of all readings is proved by an induction
with one case for each rule. Statements that hold no statements are left to
`Statement.read`, which reads them without recursion.
-/

namespace LineScript

/-! ## The end of a statement -/

/-- A statement may end in front of the first tokens, and leaves the second. -/
inductive Ends : List Token → List Token → Prop where
  | input : Ends [] []
  | line {token : Token} {rest : List Token} (h : token.kind = .newline) :
      Ends (token :: rest) rest
  | before {token : Token} {rest : List Token}
      (h : token.kind = .endOfInput ∨ token.kind = .rightBrace ∨ token.kind = .hash) :
      Ends (token :: rest) (token :: rest)

theorem Ends.unique {tokens left left' : List Token} (h : Ends tokens left)
    (h' : Ends tokens left') : left = left' := by
  cases h with
  | input => cases h'; rfl
  | line hline =>
    cases h' with
    | line => rfl
    | before hbefore => simp [hline] at hbefore
  | before hbefore =>
    cases h' with
    | line hline => simp [hline] at hbefore
    | before => rfl

namespace StatementReading

variable {before : List Token} {r : StatementReading before} {statement : Statement}
variable {e : SyntaxError} {left : List Token} {first : Token}

@[simp] theorem announce_outcome : (r.announce first).outcome = r.outcome := rfl
@[simp] theorem announce_rest : (r.announce first).rest = r.rest := rfl
@[simp] theorem announce_arena : (r.announce first).arena = r.arena := rfl
@[simp] theorem announce_errors : (r.announce first).errors = r.errors := rfl

section plain

variable {arena : Arena} {reading : Reading Statement before}

@[simp] theorem plain_outcome : (plain arena reading).outcome = reading.outcome := rfl
@[simp] theorem plain_rest : (plain arena reading).rest = reading.rest := rfl
@[simp] theorem plain_arena : (plain arena reading).arena = arena := rfl
@[simp] theorem plain_errors : (plain arena reading).errors = [] := rfl

end plain

@[simp] theorem finish_arena : r.finish.arena = r.arena := by
  unfold finish
  split
  · split <;> rfl
  · rfl

@[simp] theorem finish_errors : r.finish.errors = r.errors := by
  unfold finish
  split
  · split <;> rfl
  · rfl

/-- A statement is finished exactly if it was read and may end where it stopped. -/
theorem finish_eq_ok_iff :
    r.finish.outcome = .ok statement ∧ r.finish.rest = left ↔
      r.outcome = .ok statement ∧ Ends r.rest left := by
  obtain ⟨⟨outcome, rest, suffix⟩, arena, errors, log⟩ := r
  cases outcome with
  | error e => simp [finish]
  | ok s =>
    cases rest with
    | nil =>
      constructor
      · rintro ⟨hs, rfl⟩
        exact ⟨hs, .input⟩
      · rintro ⟨hs, ⟨⟩⟩
        exact ⟨hs, rfl⟩
    | cons token rest =>
      constructor
      · simp only [finish]
        split
        case h_1 h =>
          rintro ⟨hs, rfl⟩
          exact ⟨hs, .line h⟩
        case h_2 h =>
          rintro ⟨hs, rfl⟩
          exact ⟨hs, .before (.inl h)⟩
        case h_3 h =>
          rintro ⟨hs, rfl⟩
          exact ⟨hs, .before (.inr (.inl h))⟩
        case h_4 h =>
          rintro ⟨hs, rfl⟩
          exact ⟨hs, .before (.inr (.inr h))⟩
        case h_5 => simp
      · rintro ⟨hs, ends⟩
        cases ends with
        | line h => simpa [finish, h] using hs
        | before h => obtain h | h | h := h <;> simpa [finish, h] using hs

/-- A statement fails to be finished because it was not read or because it may not
end where it stopped. -/
theorem finish_eq_error (h : r.finish.outcome = .error e) :
    r.finish.rest = r.rest ∧
      (r.outcome = .error e ∨
        ∃ found rest, r.rest = found :: rest ∧ Statement.endsBefore found.kind = false ∧
          e = .expected .endOfStatement found) := by
  obtain ⟨⟨outcome, rest, suffix⟩, arena, errors, log⟩ := r
  cases outcome with
  | error e' => exact ⟨rfl, .inl h⟩
  | ok s =>
    cases rest with
    | nil => cases h
    | cons token rest =>
      simp only [finish] at h ⊢
      split at h
      case h_5 hline hinput hbrace hhash =>
        cases h
        exact ⟨rfl, .inr ⟨token, rest, rfl, by simp_all [Statement.endsBefore], rfl⟩⟩
      all_goals cases h

end StatementReading

/-! ## Bodies -/

/-- The token begins a statement that is no block, or an unreadable one. -/
def Token.StartsLeaf (token : Token) : Prop :=
  token.kind ≠ .newline ∧ token.kind ≠ .hash ∧ token.kind ≠ .endOfInput ∧
    token.kind ≠ .leftBrace ∧ token.kind ≠ .rightBrace

/-- Reading a body at the site, with the arena `a` and the tokens of the third
argument, gives the statements, leaves tokens and the arena `b`, and finds errors. -/
inductive BodyReads : Site → Arena → List Token → List Statement → List Token → Arena →
    List SyntaxError → Prop where
  | ended {site : Site} {a : Arena} : BodyReads site a [] [] [] a (site.endErrors site.stop)
  | stopped {site : Site} {a : Arena} {token : Token} {rest : List Token}
      (hkind : token.kind = .endOfInput) :
      BodyReads site a (token :: rest) [] (token :: rest) a (site.endErrors token.position)
  | blank {site : Site} {a b : Arena} {token : Token} {rest left : List Token}
      {body : List Statement} {errors : List SyntaxError}
      (hkind : token.kind = .newline ∨ token.kind = .hash)
      (later : BodyReads site a rest body left b errors) :
      BodyReads site a (token :: rest) body left b errors
  | closed {site : Site} {a : Arena} {token : Token} {rest : List Token}
      (hkind : token.kind = .rightBrace) (hnested : site.nested = true) :
      BodyReads site a (token :: rest) [] rest a []
  | stray {site : Site} {a b : Arena} {token : Token} {rest left : List Token}
      {body : List Statement} {errors : List SyntaxError}
      (hkind : token.kind = .rightBrace) (hroot : site.nested = false)
      (later : BodyReads site a rest body left b errors) :
      BodyReads site a (token :: rest) body left b (.unmatched token :: errors)
  | leaf {site : Site} {a b : Arena} {token : Token} {rest left : List Token}
      {statement : Statement} {body : List Statement} {errors : List SyntaxError}
      (hleaf : token.StartsLeaf)
      (hread : (Statement.read site a token rest).outcome = .ok statement)
      (later : BodyReads site (Statement.read site a token rest).arena
        (Statement.read site a token rest).rest body left b errors) :
      BodyReads site a (token :: rest) (statement :: body) left b errors
  | leafFailed {site : Site} {a b : Arena} {token : Token} {rest left : List Token}
      {e : SyntaxError} {body : List Statement} {errors : List SyntaxError}
      (hleaf : token.StartsLeaf)
      (hread : (Statement.read site a token rest).outcome = .error e)
      (hgoes : e.abortsBlock = false)
      (later : BodyReads site (Statement.read site a token rest).arena
        (Recovery.resync site.nested (Statement.read site a token rest).rest) body left b errors) :
      BodyReads site a (token :: rest) (.null :: body) left b (e :: errors)
  | leafAborted {site : Site} {a : Arena} {token : Token} {rest : List Token} {e : SyntaxError}
      (hleaf : token.StartsLeaf)
      (hread : (Statement.read site a token rest).outcome = .error e)
      (haborts : e.abortsBlock = true) :
      BodyReads site a (token :: rest) [.null]
        (Recovery.skipBlock site.stop site.nested 0 (Statement.read site a token rest).rest).2
        (Statement.read site a token rest).arena
        (e :: (Recovery.skipBlock site.stop site.nested 0
          (Statement.read site a token rest).rest).1.toList)
  | block {site : Site} {a b c : Arena} {token : Token} {rest closed next left : List Token}
      {body later : List Statement} {inside errors : List SyntaxError}
      (hkind : token.kind = .leftBrace)
      (inner : BodyReads (site.inner (a.openTable (some site.table)).1)
        (a.openTable (some site.table)).2 rest body closed b inside)
      (ends : Ends closed next)
      (outer : BodyReads site b next later left c errors) :
      BodyReads site a (token :: rest)
        (.block token.position (a.openTable (some site.table)).1 body :: later) left c
        (inside ++ errors)
  | blockFailed {site : Site} {a b c : Arena} {token found : Token} {rest closed left : List Token}
      {body later : List Statement} {inside errors : List SyntaxError}
      (hkind : token.kind = .leftBrace)
      (inner : BodyReads (site.inner (a.openTable (some site.table)).1)
        (a.openTable (some site.table)).2 rest body (found :: closed) b inside)
      (goes : Statement.endsBefore found.kind = false)
      (outer : BodyReads site b (Recovery.resync site.nested (found :: closed)) later left c
        errors) :
      BodyReads site a (token :: rest) (.null :: later) left c
        (inside ++ .expected .endOfStatement found :: errors)

section suffixes

variable {site : Site} {a b : Arena} {tokens left : List Token} {body : List Statement}
variable {errors : List SyntaxError}

theorem Ends.suffix (h : Ends tokens left) : left <:+ tokens := by
  cases h with
  | input => exact List.suffix_rfl
  | line => exact List.suffix_cons _ _
  | before => exact List.suffix_rfl

theorem BodyReads.suffix (h : BodyReads site a tokens body left b errors) : left <:+ tokens := by
  induction h with
  | ended => exact List.suffix_rfl
  | stopped => exact List.suffix_rfl
  | blank _ _ ih => exact ih.trans (List.suffix_cons _ _)
  | closed => exact List.suffix_cons _ _
  | stray _ _ _ ih => exact ih.trans (List.suffix_cons _ _)
  | leaf _ _ _ ih => exact (ih.trans (Statement.read ..).suffix).trans (List.suffix_cons _ _)
  | leafFailed _ _ _ _ ih =>
    have hrest := ih.trans (Recovery.resync_suffix ..)
    exact (hrest.trans (Statement.read ..).suffix).trans (List.suffix_cons _ _)
  | leafAborted =>
    exact ((Recovery.skipBlock_suffix ..).trans (Statement.read ..).suffix).trans
      (List.suffix_cons _ _)
  | block _ _ ends _ ihInner ihOuter =>
    exact ((ihOuter.trans ends.suffix).trans ihInner).trans (List.suffix_cons _ _)
  | blockFailed _ _ _ _ ihInner ihOuter =>
    have hrest := ihOuter.trans (Recovery.resync_suffix ..)
    exact (hrest.trans ihInner).trans (List.suffix_cons _ _)

end suffixes

/-! ## Every reading follows the rules -/

section read

variable {site : Site} {a : Arena} {token : Token} {tokens : List Token}

theorem Statement.read_errors_of_startsLeaf (site : Site) (a : Arena) (tokens : List Token)
    (h : token.StartsLeaf) : (Statement.read site a token tokens).errors = [] := by
  obtain ⟨-, -, -, hbrace, -⟩ := h
  unfold Statement.read
  split
  case h_1 =>
    simp only [StatementReading.announce_errors, StatementReading.finish_errors, readDeclare]
    repeat' split
    all_goals rfl
  case h_5 h => exact absurd h hbrace
  all_goals simp

/-- The reading of a block behind the brace of this position, before its end is looked at. -/
def Statement.readBlock (site : Site) (a : Arena) (position : Position) (tokens : List Token) :
    StatementReading tokens :=
  let opened := a.openTable (some site.table)
  let inside := readBody (site.inner opened.1) opened.2 tokens
  { outcome := .ok (.block position opened.1 inside.body)
    rest := inside.rest
    suffix := inside.suffix
    arena := inside.arena
    errors := inside.errors
    log := .blockOpened position (site.depth + 1) :: inside.log ++ [.blockClosed position] }

theorem Statement.read_eq_readBlock (h : token.kind = .leftBrace) :
    Statement.read site a token tokens =
      (readBlock site a token.position tokens).finish.announce token := by
  unfold Statement.read
  simp only [h]
  rfl

/-- A block is read by reading its body in a new table. -/
theorem Statement.read_of_leftBrace (site : Site) (a : Arena) (tokens : List Token)
    (h : token.kind = .leftBrace) :
    let opened := a.openTable (some site.table)
    let inside := readBody (site.inner opened.1) opened.2 tokens
    let r := Statement.read site a token tokens
    r.arena = inside.arena ∧ r.errors = inside.errors ∧
      ((Ends inside.rest r.rest ∧
          r.outcome = .ok (.block token.position opened.1 inside.body)) ∨
        ∃ found rest, inside.rest = found :: rest ∧ Statement.endsBefore found.kind = false ∧
          r.rest = found :: rest ∧ r.outcome = .error (.expected .endOfStatement found)) := by
  intro opened inside r
  let whole := readBlock site a token.position tokens
  have hr : r = whole.finish.announce token := read_eq_readBlock h
  rw [hr]
  refine ⟨whole.finish_arena, whole.finish_errors, ?_⟩
  cases hout : whole.finish.outcome with
  | ok statement =>
    obtain ⟨hok, hends⟩ := StatementReading.finish_eq_ok_iff.mp ⟨hout, rfl⟩
    cases hok
    exact .inl ⟨hends, hout⟩
  | error e =>
    obtain ⟨hrest, herr | ⟨found, rest, hfound, hends, rfl⟩⟩ :=
      StatementReading.finish_eq_error hout
    · cases herr
    · exact .inr ⟨found, rest, hfound, hends, hrest.trans hfound, hout⟩

/-- The token begins a statement, be it a block or not. -/
def Token.StartsStatement (token : Token) : Prop :=
  token.kind ≠ .newline ∧ token.kind ≠ .hash ∧ token.kind ≠ .endOfInput ∧ token.kind ≠ .rightBrace

theorem readBody_of_blank (h : token.kind = .newline ∨ token.kind = .hash) :
    readBody site a (token :: tokens) =
      (readBody site a tokens).after (List.suffix_cons token tokens) [] [] [] := by
  rw [readBody]
  obtain h | h := h <;> simp only [h]

theorem readBody_of_endOfInput (h : token.kind = .endOfInput) :
    readBody site a (token :: tokens) =
      .done (token :: tokens) a (site.endErrors token.position) := by
  rw [readBody]
  simp only [h]

theorem readBody_of_nested (h : token.kind = .rightBrace) (hnested : site.nested = true) :
    readBody site a (token :: tokens) =
      (BodyReading.done tokens a []).after (List.suffix_cons token tokens) [] [] [] := by
  rw [readBody]
  simp only [h, hnested, if_true]

theorem readBody_of_root (h : token.kind = .rightBrace) (hroot : site.nested = false) :
    readBody site a (token :: tokens) =
      (readBody site a tokens).after (List.suffix_cons token tokens) [] [.unmatched token] [] := by
  rw [readBody]
  simp only [h, hroot, Bool.false_eq_true, if_false]

section statement

variable {r : StatementReading tokens} {statement : Statement} {e : SyntaxError}

theorem readBody_of_read_ok (hstart : token.StartsStatement)
    (hr : Statement.read site a token tokens = r) (hout : r.outcome = .ok statement) :
    readBody site a (token :: tokens) =
      (readBody site r.arena r.rest).after (r.suffix.trans (List.suffix_cons token tokens))
        [statement] r.errors r.log := by
  obtain ⟨hline, hhash, hinput, hright⟩ := hstart
  obtain ⟨⟨outcome, left, suffix⟩, b, errors, log⟩ := r
  cases hout
  rw [readBody]
  split
  case h_5 => simp only [hr]
  all_goals contradiction

theorem readBody_of_read_error (hstart : token.StartsStatement)
    (hr : Statement.read site a token tokens = r) (hout : r.outcome = .error e)
    (hgoes : e.abortsBlock = false) :
    readBody site a (token :: tokens) =
      (readBody site r.arena (Recovery.resync site.nested r.rest)).after
        ((Recovery.resync_suffix site.nested r.rest).trans
          (r.suffix.trans (List.suffix_cons token tokens)))
        [.null] (r.errors ++ [e]) (r.log ++ [.statementFailed e]) := by
  obtain ⟨hline, hhash, hinput, hright⟩ := hstart
  obtain ⟨⟨outcome, left, suffix⟩, b, errors, log⟩ := r
  cases hout
  rw [readBody]
  split
  case h_5 => simp only [hr, hgoes, Bool.false_eq_true, if_false]
  all_goals contradiction

theorem readBody_of_read_aborts (hstart : token.StartsStatement)
    (hr : Statement.read site a token tokens = r) (hout : r.outcome = .error e)
    (haborts : e.abortsBlock = true) :
    readBody site a (token :: tokens) =
      (BodyReading.done (Recovery.skipBlock site.stop site.nested 0 r.rest).2 r.arena
        (Recovery.skipBlock site.stop site.nested 0 r.rest).1.toList).after
        ((Recovery.skipBlock_suffix site.stop site.nested 0 r.rest).trans
          (r.suffix.trans (List.suffix_cons token tokens)))
        [.null] (r.errors ++ [e]) (r.log ++ [.statementFailed e]) := by
  obtain ⟨hline, hhash, hinput, hright⟩ := hstart
  obtain ⟨⟨outcome, left, suffix⟩, b, errors, log⟩ := r
  cases hout
  rw [readBody]
  split
  case h_5 => simp only [hr, haborts, if_true]
  all_goals contradiction

end statement

/-- Every reading of a body follows the rules. -/
theorem bodyReads_readBody (site : Site) (a : Arena) (tokens : List Token) :
    BodyReads site a tokens (readBody site a tokens).body (readBody site a tokens).rest
      (readBody site a tokens).arena (readBody site a tokens).errors := by
  -- Every rule leaves fewer tokens to what is read later.
  induction hn : tokens.length using Nat.strongRecOn generalizing site a tokens with
  | ind n ih =>
    subst hn
    have next (site : Site) (a : Arena) {left : List Token} (h : left.length < tokens.length) :
        BodyReads site a left (readBody site a left).body (readBody site a left).rest
          (readBody site a left).arena (readBody site a left).errors := ih _ h site a left rfl
    cases tokens with
    | nil =>
      rw [readBody]
      exact .ended
    | cons token rest =>
      have hrest : rest.length < (token :: rest).length := Nat.lt_succ_self _
      by_cases hblank : token.kind = .newline ∨ token.kind = .hash
      · rw [readBody_of_blank hblank]
        exact .blank hblank (next site a hrest)
      by_cases hinput : token.kind = .endOfInput
      · rw [readBody_of_endOfInput hinput]
        exact .stopped hinput
      by_cases hright : token.kind = .rightBrace
      · cases hnested : site.nested with
        | true =>
          rw [readBody_of_nested hright hnested]
          exact .closed hright hnested
        | false =>
          rw [readBody_of_root hright hnested]
          exact .stray hright hnested (next site a hrest)
      rw [not_or] at hblank
      have hstart : token.StartsStatement := ⟨hblank.1, hblank.2, hinput, hright⟩
      have hleft : (Statement.read site a token rest).rest.length < (token :: rest).length :=
        Nat.lt_succ_of_le (Statement.read site a token rest).suffix.length_le
      have hsync : (Recovery.resync site.nested
          (Statement.read site a token rest).rest).length < (token :: rest).length :=
        Nat.lt_of_le_of_lt (Recovery.resync_suffix _ _).length_le hleft
      by_cases hbrace : token.kind = .leftBrace
      · have inner := next (site.inner (a.openTable (some site.table)).1)
          (a.openTable (some site.table)).2 hrest
        obtain ⟨harena, herrors, ⟨hends, hout⟩ | ⟨found, closed, hclosed, hgoes, hfound, hout⟩⟩ :=
          Statement.read_of_leftBrace site a rest hbrace
        · rw [readBody_of_read_ok hstart rfl hout]
          simp only [BodyReading.after, herrors]
          exact .block hbrace inner hends (harena ▸ next site _ hleft)
        · have haborts : (SyntaxError.expected .endOfStatement found).abortsBlock = false := rfl
          rw [readBody_of_read_error hstart rfl hout haborts]
          simp only [BodyReading.after, herrors, List.append_assoc, List.cons_append,
            List.nil_append]
          rw [hclosed] at inner
          exact .blockFailed hbrace inner hgoes
            (by rw [← hfound, ← harena]; exact next site _ hsync)
      · have hleaf : token.StartsLeaf := ⟨hblank.1, hblank.2, hinput, hbrace, hright⟩
        have herrors := Statement.read_errors_of_startsLeaf site a rest hleaf
        cases hout : (Statement.read site a token rest).outcome with
        | ok statement =>
          rw [readBody_of_read_ok hstart rfl hout]
          simp only [BodyReading.after, herrors]
          exact .leaf hleaf hout (next site _ hleft)
        | error e =>
          cases haborts : e.abortsBlock with
          | true =>
            rw [readBody_of_read_aborts hstart rfl hout haborts]
            simp only [BodyReading.after, herrors]
            exact .leafAborted hleaf hout haborts
          | false =>
            rw [readBody_of_read_error hstart rfl hout haborts]
            simp only [BodyReading.after, herrors]
            exact .leafFailed hleaf hout haborts (next site _ hsync)

end read

/-- The site of the statements of a whole program. -/
def Site.outermost (stop : Position) : Site :=
  { table := (Arena.empty.openTable none).1, depth := 0, stop }

/-- A program is read as one body that no block is around. -/
theorem Program.bodyReads_ofTokens (cursor : Cursor) :
    BodyReads (.outermost cursor.closing.position) (Arena.empty.openTable none).2 cursor.ahead
      (ofTokens cursor).1.root.body
      (readBody (.outermost cursor.closing.position) (Arena.empty.openTable none).2
        cursor.ahead).rest
      (ofTokens cursor).1.arena (ofTokens cursor).2.1 :=
  bodyReads_readBody _ _ _

/-- Lines without errors give the program of their tokens. -/
theorem Program.parse_of_errors_eq_nil {lines : List String} (h : (parse lines).errors = []) :
    (parse lines).program = (ofTokens (Cursor.ofLines lines).1).1 ∧
      (ofTokens (Cursor.ofLines lines).1).2.1 = [] := by
  unfold parse at h ⊢
  simp only at h ⊢
  split at h
  case isTrue hlexical =>
    rw [if_pos hlexical]
    exact ⟨rfl, List.map_eq_nil_iff.mp h⟩
  case isFalse hlexical =>
    exact absurd (List.isEmpty_iff.mpr (List.map_eq_nil_iff.mp h)) hlexical

end LineScript
