import LineScript.Proofs.Cursors.Statements

/-!
# Programs from a cursor

Going on after an error, blocks, and the loop over the statements of a body. The loop comes back
because each of its turns leaves fewer tokens ahead, and it gives what `readBody` gives
(`Parser.takesBody`). So the parser comes back from every list of tokens with the program, the
errors and the log of `Program.ofTokens` (`Parser.runs_program`).
-/

namespace LineScript

namespace Statement

/-- A token that begins no statement is dropped. -/
theorem read_unexpected {site : Site} {a : Arena} {first : Token} {tokens : List Token}
    (hbrace : first.kind ≠ .leftBrace) (hfirst : ¬ first.Begins) :
    Statement.read site a first tokens =
      (StatementReading.plain a (.stay tokens (.error (.unexpected first)))).announce first := by
  unfold Statement.read
  split
  case h_1 hkind => exact absurd (.inl hkind) hfirst
  case h_2 hkind => exact absurd (.inr (.inl hkind)) hfirst
  case h_3 hkind => exact absurd (.inr (.inr (.inl hkind))) hfirst
  case h_4 hkind => exact absurd (.inr (.inr (.inr hkind))) hfirst
  case h_5 hkind => exact absurd hkind hbrace
  case h_6 => rfl

end Statement

namespace Parser

variable {p : Parser} {c : Cursor} {limit : Nat} {tokens left : List Token}

/-! ## Going on after an error -/

theorem runs_resync (hclosed : p.cursor.Closed) (hlimit : p.cursor.ahead.length < limit) :
    ∃ c, p.cursor.Reaches c (Recovery.resync p.site.nested p.cursor.ahead) ∧
      Runs (resync limit) p () (p.moved c) := by
  induction limit generalizing p with
  | zero => cases hlimit
  | succ limit ih =>
    cases htokens : p.cursor.ahead with
    | nil =>
      have hstop : p.cursor.peek.kind = .endOfInput := by rwa [Cursor.peek_of_nil htokens]
      refine ⟨_, .stay htokens, ?_⟩
      rw [resync]
      refine .bind (.peek p) ?_
      simp only [hstop]
      exact .pure _ p
    | cons token rest =>
      have hpop := (Cursor.Reaches.stay htokens).pop
      obtain rfl := Cursor.peek_of_cons htokens
      have next := @ih (p.moved p.cursor.pop.2) (hpop.closed hclosed)
      rw [moved_cursor, hpop.ahead] at next
      rw [htokens] at hlimit
      obtain ⟨c, hc, hruns⟩ := next (Nat.lt_of_succ_lt_succ hlimit)
      rw [Recovery.resync, resync]
      split
      case h_1 hkind =>
        refine ⟨_, .stay htokens, .bind (.peek p) ?_⟩
        simp only [hkind]
        exact .pure _ p
      case h_2 hkind =>
        split
        case isTrue hnested =>
          refine ⟨_, .stay htokens, .bind (.peek p) ?_⟩
          simp only [hkind]
          refine .bind (.get p) ?_
          rw [if_pos hnested]
          exact .pure _ p
        case isFalse hnested =>
          refine ⟨c, hpop.trans hc, .bind (.peek p) ?_⟩
          simp only [hkind]
          refine .bind (.get p) ?_
          rw [if_neg hnested]
          exact .bind (.pop p) hruns
      case h_3 hkind =>
        refine ⟨_, hpop, .bind (.peek p) ?_⟩
        simp only [hkind]
        exact .bind (.pop p) (.pure _ _)
      case h_4 =>
        refine ⟨c, hpop.trans hc, .bind (.peek p) ?_⟩
        split
        case h_4 => exact .bind (.pop p) hruns
        all_goals contradiction

theorem endErrors_eq_toList (site : Site) (position : Position) :
    site.endErrors position =
      (if site.nested then some (Recovery.unclosed position) else none).toList := by
  unfold Site.endErrors
  split <;> rfl

theorem runs_skipBlock (hclosed : p.cursor.Closed) (hlimit : p.cursor.ahead.length < limit)
    (depth : Nat) :
    let skipped := Recovery.skipBlock p.site.stop p.site.nested depth p.cursor.ahead
    ∃ c, p.cursor.Reaches c skipped.2 ∧
      Runs (skipBlock limit depth) p ()
        { p with cursor := c, errors := p.errors ++ skipped.1.toList } := by
  induction limit generalizing p depth with
  | zero => cases hlimit
  | succ limit ih =>
    cases htokens : p.cursor.ahead with
    | nil =>
      have hpeek := Cursor.peek_of_nil htokens
      have hstop : p.cursor.peek.kind = .endOfInput := by rwa [hpeek]
      refine ⟨p.cursor.pop.2, .beyond htokens, ?_⟩
      rw [skipBlock, Recovery.skipBlock, ← endErrors_eq_toList]
      refine .bind (.pop p) ?_
      simp only [hstop]
      rw [hpeek]
      exact .bind (.get _) rfl
    | cons token rest =>
      have hpop := (Cursor.Reaches.stay htokens).pop
      obtain rfl := Cursor.peek_of_cons htokens
      have next := @ih (p.moved p.cursor.pop.2) (hpop.closed hclosed)
      rw [moved_cursor, hpop.ahead] at next
      rw [htokens] at hlimit
      replace next := next (Nat.lt_of_succ_lt_succ hlimit)
      rw [Recovery.skipBlock, skipBlock]
      split
      case h_1 hkind =>
        refine ⟨_, hpop, .bind (.pop p) ?_⟩
        simp only [hkind, ← endErrors_eq_toList]
        exact .bind (.get _) rfl
      case h_2 hkind =>
        obtain ⟨c, hc, hruns⟩ := next (depth + 1)
        refine ⟨c, hpop.trans hc, .bind (.pop p) ?_⟩
        simp only [hkind]
        exact hruns
      case h_3 hkind =>
        split
        case isTrue hcloses =>
          refine ⟨_, hpop, .bind (.pop p) ?_⟩
          simp only [hkind, Option.toList_none, List.append_nil]
          refine .bind (.get _) ?_
          rw [site_popped, if_pos hcloses]
          exact .pure _ _
        case isFalse hcloses =>
          obtain ⟨c, hc, hruns⟩ := next (depth - 1)
          refine ⟨c, hpop.trans hc, .bind (.pop p) ?_⟩
          simp only [hkind]
          refine .bind (.get _) ?_
          rw [site_popped, if_neg hcloses]
          exact hruns
      case h_4 =>
        obtain ⟨c, hc, hruns⟩ := next depth
        refine ⟨c, hpop.trans hc, .bind (.pop p) ?_⟩
        split
        case h_4 => exact hruns
        all_goals contradiction

/-! ## Statements -/

/-- The parser in front of the statements of a block. -/
def entered (p : Parser) (position : Position) : Parser :=
  let opened := p.arena.openTable (some p.table)
  { p with
    arena := opened.2
    table := opened.1
    outer := p.table :: p.outer
    log := p.log ++ [.blockOpened position (p.outer.length + 1)] }

/-- The body in front of the parser is taken as it is read, within the limit. -/
def TakesBody (limit : Nat) (p : Parser) : Prop :=
  let r := readBody p.site p.arena p.cursor.ahead
  ∃ c, p.cursor.Reaches c r.rest ∧ Runs (body limit) p r.body (p.after c r.arena r.errors r.log)

/-- The parser in front of the tokens behind the first one of a statement. -/
def begun (p : Parser) : Parser :=
  { p with cursor := p.cursor.pop.2, log := p.log ++ [.statement p.cursor.peek] }

theorem begun_after {c : Cursor} {a : Arena} {errors : List SyntaxError} {log : List Event} :
    p.begun.after c a errors log = p.after c a errors (.statement p.cursor.peek :: log) := by
  simp only [begun, after, List.append_assoc, List.cons_append, List.nil_append]

section statement

variable {rest : List Token}

theorem runs_statement_of_leaf {outcome : Except SyntaxError Statement} {q : Parser}
    (hbrace : p.cursor.peek.kind ≠ .leftBrace)
    (hleaf : Runs (ended (leaf limit p.cursor.peek)).run p.begun outcome q) :
    Runs (statement (limit + 1)).run p outcome q := by
  rw [statement]
  refine .andThen (.lift (.pop p)) (.andThen (.lift rfl) ?_)
  rw [if_neg hbrace]
  exact hleaf

/-- Whatever stands in front of the parser, a token that begins no statement is given back. -/
theorem runs_statement_unexpected (hbrace : p.cursor.peek.kind ≠ .leftBrace)
    (hfirst : ¬ p.cursor.peek.Begins) :
    Runs (statement (limit + 1)).run p (.error (.unexpected p.cursor.peek))
      (p.after p.cursor p.arena [] [.statement p.cursor.peek]) := by
  refine runs_statement_of_leaf hbrace (Runs.failed ?_)
  rw [← begun_after, after, List.append_nil, List.append_nil]
  exact runs_leaf_unexpected hfirst

theorem takes_statement_of_begins (hclosed : p.cursor.Closed)
    (htokens : p.cursor.ahead = p.cursor.peek :: rest)
    (hlimit : 3 * rest.length + 3 ≤ limit) (hfirst : p.cursor.peek.Begins) :
    Takes (statement (limit + 1)) p (Statement.read p.site p.arena p.cursor.peek rest) := by
  have hpop := (Cursor.Reaches.stay htokens).pop
  have hbegun : p.begun.Stands p.begun.context rest := ⟨hclosed, rfl, hpop.ahead⟩
  have hleaf : p.cursor.peek.StartsLeaf := by
    unfold Token.StartsLeaf
    obtain h | h | h | h := hfirst <;> simp [h]
  obtain ⟨c, hc, hruns⟩ := takes_ended hbegun.closed (takes_leaf hbegun hlimit hfirst)
  rw [Statement.read_eq_readUnfinished hleaf]
  refine ⟨c, hpop.trans hc, runs_statement_of_leaf hleaf.2.2.2.1 ?_⟩
  rw [begun_after] at hruns
  exact hruns

theorem runs_block {position : Position} (hbody : (p.entered position).TakesBody limit) :
    let opened := p.arena.openTable (some p.table)
    let inside := readBody (p.site.inner opened.1) opened.2 p.cursor.ahead
    let r := Statement.readBlock p.site p.arena position p.cursor.ahead
    ∃ c, p.cursor.Reaches c r.rest ∧
      Runs (block (limit + 1) position) p (.block position opened.1 inside.body)
        (p.after c r.arena r.errors r.log) := by
  intro opened inside r
  obtain ⟨c, hc, hruns⟩ := hbody
  refine ⟨c, hc, ?_⟩
  have hleave : Runs (leave position)
      ((p.entered position).after c inside.arena inside.errors inside.log) ()
      (p.after c r.arena r.errors r.log) := by
    have hlog : p.log ++ r.log =
        (p.entered position).log ++ inside.log ++ [.blockClosed position] := by
      simp only [entered, r, Statement.readBlock, List.append_assoc, List.cons_append,
        List.nil_append]
      rfl
    unfold after
    rw [hlog]
    rfl
  rw [block]
  exact .bind rfl (.bind hruns (.bind hleave (.pure _ _)))

theorem takes_statement_of_leftBrace (hclosed : p.cursor.Closed)
    (htokens : p.cursor.ahead = p.cursor.peek :: rest) (hbrace : p.cursor.peek.kind = .leftBrace)
    (hbody : (p.begun.entered p.cursor.peek.position).TakesBody limit) :
    Takes (statement (limit + 2)) p (Statement.read p.site p.arena p.cursor.peek rest) := by
  have hpop := (Cursor.Reaches.stay htokens).pop
  have hahead : p.begun.cursor.ahead = rest := hpop.ahead
  have hblock := runs_block hbody
  rw [hahead] at hblock
  obtain ⟨c, hc, hruns⟩ := hblock
  have htakes : Takes (block (limit + 1) p.cursor.peek.position) p.begun
      (Statement.readBlock p.site p.arena p.cursor.peek.position rest) := ⟨c, hc, .lift hruns⟩
  obtain ⟨d, hd, hended⟩ := takes_ended (p := p.begun) hclosed htakes
  rw [Statement.read_eq_readBlock hbrace]
  refine ⟨d, hpop.trans hd, ?_⟩
  rw [begun_after] at hended
  rw [statement]
  refine .andThen (.lift (.pop p)) (.andThen (.lift rfl) ?_)
  rw [if_pos hbrace]
  exact hended

/-- A statement is taken as it is read. Only a token that begins none is still in front of the
cursor, where its reader has dropped it. -/
theorem runs_statement (hclosed : p.cursor.Closed)
    (htokens : p.cursor.ahead = p.cursor.peek :: rest) (hlimit : 3 * rest.length + 2 ≤ limit)
    (hbody : p.cursor.peek.kind = .leftBrace →
      (p.begun.entered p.cursor.peek.position).TakesBody limit) :
    let r := Statement.read p.site p.arena p.cursor.peek rest
    ∃ c left, p.cursor.Reaches c left ∧
      Runs (statement (limit + 2)).run p r.outcome (p.after c r.arena r.errors r.log) ∧
      (left = r.rest ∨
        left = p.cursor.peek :: r.rest ∧ r.outcome = .error (.unexpected p.cursor.peek)) := by
  by_cases hbrace : p.cursor.peek.kind = .leftBrace
  · obtain ⟨c, hc, hruns⟩ := takes_statement_of_leftBrace hclosed htokens hbrace (hbody hbrace)
    exact ⟨c, _, hc, hruns, .inl rfl⟩
  by_cases hfirst : p.cursor.peek.Begins
  · obtain ⟨c, hc, hruns⟩ :=
      takes_statement_of_begins hclosed htokens (Nat.succ_le_succ hlimit) hfirst
    exact ⟨c, _, hc, hruns, .inl rfl⟩
  · rw [Statement.read_unexpected hbrace hfirst]
    exact ⟨_, _, .stay htokens, runs_statement_unexpected hbrace hfirst, .inr ⟨rfl, rfl⟩⟩

end statement

/-! ## Turns of the loop -/

section turn

variable {rest : List Token} {tree : Statement} {e : SyntaxError} {arena : Arena}
variable {errors : List SyntaxError} {log : List Event}

theorem site_after (hc : p.cursor.Reaches c left) : (p.after c arena errors log).site = p.site := by
  simp only [site, after, hc.closing]

theorem runs_turn_ok {q : Parser} (h : Runs (statement limit).run p (.ok tree) q) :
    Runs (turn (limit + 1)) p (tree, true) q := by
  rw [turn]
  exact .bind h (.pure _ q)

theorem runs_tell (event : Event) : Runs (tell event) (p.after c arena errors log) ()
    (p.after c arena errors (log ++ [event])) := by
  simp only [after, ← List.append_assoc]
  rfl

theorem runs_report (more : List SyntaxError) : Runs (report more) (p.after c arena errors log) ()
    (p.after c arena (errors ++ more) log) := by
  simp only [after, ← List.append_assoc]
  rfl

theorem runs_turn_error (hclosed : p.cursor.Closed) (hc : p.cursor.Reaches c left)
    (hlimit : left.length < limit) (hgoes : e.abortsBlock = false)
    (h : Runs (statement limit).run p (.error e) (p.after c arena errors log)) :
    ∃ d, p.cursor.Reaches d (Recovery.resync p.site.nested left) ∧
      Runs (turn (limit + 1)) p (.null, true)
        (p.after d arena (errors ++ [e]) (log ++ [.statementFailed e])) := by
  let told : Parser := p.after c arena (errors ++ [e]) (log ++ [.statementFailed e])
  have hahead : told.cursor.ahead = left := hc.ahead
  have hsync := runs_resync (p := told) (hc.closed hclosed) (hahead ▸ hlimit)
  rw [site_after hc, hahead] at hsync
  obtain ⟨d, hd, hruns⟩ := hsync
  refine ⟨d, hc.trans hd, ?_⟩
  rw [turn]
  refine .bind h (.bind (runs_tell _) (.bind (runs_report [e]) ?_))
  rw [hgoes, if_neg Bool.false_ne_true]
  exact .bind hruns (.pure _ _)

theorem runs_turn_aborts (hclosed : p.cursor.Closed) (hc : p.cursor.Reaches c left)
    (hlimit : left.length < limit) (haborts : e.abortsBlock = true)
    (h : Runs (statement limit).run p (.error e) (p.after c arena errors log)) :
    let skipped := Recovery.skipBlock p.site.stop p.site.nested 0 left
    ∃ d, p.cursor.Reaches d skipped.2 ∧
      Runs (turn (limit + 1)) p (.null, false)
        (p.after d arena (errors ++ [e] ++ skipped.1.toList) (log ++ [.statementFailed e])) := by
  let told : Parser := p.after c arena (errors ++ [e]) (log ++ [.statementFailed e])
  have hahead : told.cursor.ahead = left := hc.ahead
  have hskip := runs_skipBlock (p := told) (hc.closed hclosed) (hahead ▸ hlimit) 0
  rw [site_after hc, hahead] at hskip
  obtain ⟨d, hd, hruns⟩ := hskip
  refine ⟨d, hc.trans hd, ?_⟩
  rw [turn]
  refine .bind h (.bind (runs_tell _) (.bind (runs_report [e]) ?_))
  rw [haborts, if_pos rfl]
  refine .bind hruns ?_
  simp only [told, after, ← List.append_assoc]
  exact .pure _ _

/-- The token of a statement that did not begin is dropped with the rest of its line. -/
theorem resync_cons {first : Token} (hstart : first.StartsStatement) (nested : Bool) :
    Recovery.resync nested (first :: rest) = Recovery.resync nested rest := by
  obtain ⟨hline, -, hinput, hright⟩ := hstart
  rw [Recovery.resync]
  split
  case h_4 => rfl
  all_goals contradiction

/-- A turn of the loop takes tokens, and `readBody` reads as the turn does and then goes on from
the tokens that it leaves. -/
theorem runs_turn (hclosed : p.cursor.Closed) (htokens : p.cursor.ahead = p.cursor.peek :: rest)
    (hstart : p.cursor.peek.StartsStatement) (hlimit : 3 * rest.length + 2 ≤ limit)
    (hbody : p.cursor.peek.kind = .leftBrace →
      (p.begun.entered p.cursor.peek.position).TakesBody limit) :
    ∃ c left tree goes arena errors log, ∃ h : left <:+ rest,
      p.cursor.Reaches c left ∧
      Runs (turn (limit + 3)) p (tree, goes) (p.after c arena errors log) ∧
      readBody p.site p.arena (p.cursor.peek :: rest) =
        BodyReading.after (h.trans (List.suffix_cons _ rest)) [tree] errors log
          (if goes then readBody p.site arena left else .done left arena []) := by
  obtain ⟨c, left, hc, hruns, hleft⟩ := runs_statement hclosed htokens hlimit hbody
  generalize hr : Statement.read p.site p.arena p.cursor.peek rest = r at hruns hleft
  have hshort : left.length < limit + 2 := by
    have hrest := r.suffix.length_le
    obtain rfl | ⟨rfl, -⟩ := hleft
    · omega
    · rw [List.length_cons]
      omega
  cases hout : r.outcome with
  | ok tree =>
    rw [hout] at hruns hleft
    obtain rfl : left = r.rest := by simpa using hleft
    exact ⟨c, _, tree, true, r.arena, r.errors, r.log, r.suffix, hc, runs_turn_ok hruns,
      readBody_of_read_ok hstart hr hout⟩
  | error e =>
    rw [hout] at hruns hleft
    cases haborts : e.abortsBlock with
    | false =>
      have hsync (nested : Bool) : Recovery.resync nested left = Recovery.resync nested r.rest := by
        obtain rfl | ⟨rfl, -⟩ := hleft
        · rfl
        · exact resync_cons hstart nested
      obtain ⟨d, hd, hturn⟩ := runs_turn_error hclosed hc hshort haborts hruns
      rw [hsync] at hd
      exact ⟨d, _, .null, true, r.arena, _, _,
        (Recovery.resync_suffix p.site.nested r.rest).trans r.suffix, hd, hturn,
        readBody_of_read_error hstart hr hout haborts⟩
    | true =>
      obtain rfl : left = r.rest := by
        obtain hleft | ⟨-, he⟩ := hleft
        · exact hleft
        · cases he
          cases haborts
      obtain ⟨d, hd, hturn⟩ := runs_turn_aborts hclosed hc hshort haborts hruns
      refine ⟨d, _, .null, false, r.arena, _, _,
        (Recovery.skipBlock_suffix p.site.stop p.site.nested 0 r.rest).trans r.suffix, hd, hturn,
        ?_⟩
      rw [readBody_of_read_aborts hstart hr hout haborts]
      simp only [BodyReading.after, BodyReading.done, Bool.false_eq_true, if_false,
        List.append_assoc, List.append_nil, List.singleton_append]

end turn

/-! ## Bodies -/

section body

variable {q : Parser} {rest : List Token} {tree : Statement} {trees : List Statement}

theorem runs_body_blank (hkind : p.cursor.peek.kind = .newline ∨ p.cursor.peek.kind = .hash)
    (later : Runs (body limit) (p.moved p.cursor.pop.2) trees q) :
    Runs (body (limit + 1)) p trees q := by
  rw [body]
  refine .bind (.peek p) ?_
  obtain hkind | hkind := hkind <;> simp only [hkind] <;> exact .bind (.pop p) later

theorem runs_body_stop (hkind : p.cursor.peek.kind = .endOfInput) :
    Runs (body (limit + 1)) p []
      (p.after p.cursor p.arena (p.site.endErrors p.cursor.peek.position) []) := by
  rw [body]
  refine .bind (.peek p) ?_
  simp only [hkind]
  refine .bind (.get p) ?_
  rw [after, List.append_nil]
  exact .bind rfl (.pure _ _)

theorem runs_body_nested (hkind : p.cursor.peek.kind = .rightBrace)
    (hnested : p.site.nested = true) : Runs (body (limit + 1)) p [] (p.moved p.cursor.pop.2) := by
  rw [body]
  refine .bind (.peek p) ?_
  simp only [hkind]
  refine .bind (.pop p) (.bind (.get _) ?_)
  rw [site_popped, if_pos hnested]
  exact .pure _ _

theorem runs_body_unmatched (hkind : p.cursor.peek.kind = .rightBrace)
    (hroot : p.site.nested = false)
    (later : Runs (body limit) (p.after p.cursor.pop.2 p.arena [.unmatched p.cursor.peek] [])
      trees q) :
    Runs (body (limit + 1)) p trees q := by
  rw [body]
  refine .bind (.peek p) ?_
  simp only [hkind]
  refine .bind (.pop p) (.bind (.get _) ?_)
  rw [site_popped, hroot, if_neg Bool.false_ne_true]
  rw [after, List.append_nil] at later
  exact .bind rfl later

theorem runs_body_turn (hstart : p.cursor.peek.StartsStatement)
    {goes : Bool} {r : Parser} (h : Runs (turn limit) p (tree, goes) q)
    (later : if goes then Runs (body limit) q trees r else trees = [] ∧ q = r) :
    Runs (body (limit + 1)) p (tree :: trees) r := by
  obtain ⟨hline, hhash, hinput, hright⟩ := hstart
  rw [body]
  refine .bind (.peek p) ?_
  split
  case h_5 =>
    refine .bind h ?_
    cases goes with
    | true => exact .bind later (.pure _ r)
    | false =>
      obtain ⟨rfl, rfl⟩ := later
      exact .pure _ q
  all_goals contradiction

/-- What was done in front of a body that is taken is done in front of the whole. -/
theorem TakesBody.whole {arena : Arena} {errors : List SyntaxError} {log : List Event}
    {h : left <:+ tokens} (htokens : p.cursor.ahead = tokens) (hc : p.cursor.Reaches c left)
    (hread : readBody p.site p.arena tokens =
      (readBody p.site arena left).after h trees errors log)
    (later : (p.after c arena errors log).TakesBody limit)
    (hruns : ∀ {trees' q}, Runs (body limit) (p.after c arena errors log) trees' q →
      Runs (body (limit + 1)) p (trees ++ trees') q) : p.TakesBody (limit + 1) := by
  have hahead : (p.after c arena errors log).cursor.ahead = left := hc.ahead
  rw [TakesBody, site_after hc, hahead] at later
  obtain ⟨d, hd, hbody⟩ := later
  rw [after_after] at hbody
  rw [TakesBody, htokens, hread]
  exact ⟨d, hc.trans hd, hruns hbody⟩

/-- A body is taken as it is read, whatever tokens are ahead. Four calls for each token are deep
enough: from a body to a turn, a statement, a block, and the body behind its brace. -/
theorem takesBody (hclosed : p.cursor.Closed) (hlimit : 4 * p.cursor.ahead.length + 6 ≤ limit) :
    p.TakesBody limit := by
  induction limit using Nat.strongRecOn generalizing p with
  | ind limit ih =>
    obtain ⟨limit, rfl⟩ := Nat.exists_eq_add_of_le' (show 4 ≤ limit by omega)
    cases htokens : p.cursor.ahead with
    | nil =>
      have hpeek := Cursor.peek_of_nil htokens
      have hstop : p.cursor.peek.kind = .endOfInput := by rwa [hpeek]
      rw [TakesBody, htokens, readBody]
      refine ⟨_, .stay htokens, ?_⟩
      have hruns : Runs (body (limit + 4)) p [] _ := runs_body_stop hstop
      rw [hpeek] at hruns
      exact hruns
    | cons token rest =>
      have hpop := (Cursor.Reaches.stay htokens).pop
      obtain rfl := Cursor.peek_of_cons htokens
      rw [htokens, List.length_cons] at hlimit
      -- Every turn of the loop, and every block inside it, has fewer tokens ahead.
      have next {q : Parser} {left : List Token} {within : Nat}
          (hq : p.cursor.Reaches q.cursor left) (hleft : left.length ≤ rest.length)
          (hwithin : limit ≤ within ∧ within < limit + 4) : q.TakesBody within := by
        refine ih within hwithin.2 (hq.closed hclosed) ?_
        rw [hq.ahead]
        omega
      have hinner : limit ≤ limit ∧ limit < limit + 4 := by omega
      have hlater : limit ≤ limit + 3 ∧ limit + 3 < limit + 4 := by omega
      by_cases hblank : p.cursor.peek.kind = .newline ∨ p.cursor.peek.kind = .hash
      · refine .whole htokens hpop (readBody_of_blank hblank)
          (next hpop (Nat.le_refl _) hlater) ?_
        intro trees q later
        rw [← moved_eq_after] at later
        exact runs_body_blank hblank later
      by_cases hinput : p.cursor.peek.kind = .endOfInput
      · rw [TakesBody, htokens, readBody_of_endOfInput hinput]
        exact ⟨_, .stay htokens, runs_body_stop hinput⟩
      by_cases hright : p.cursor.peek.kind = .rightBrace
      · cases hnested : p.site.nested with
        | true =>
          rw [TakesBody, htokens, readBody_of_nested hright hnested]
          refine ⟨_, hpop, ?_⟩
          have hruns : Runs (body (limit + 4)) p [] _ := runs_body_nested hright hnested
          rw [moved_eq_after] at hruns
          exact hruns
        | false =>
          exact .whole htokens hpop (readBody_of_root hright hnested)
            (next hpop (Nat.le_refl _) hlater) (runs_body_unmatched hright hnested)
      rw [not_or] at hblank
      have hstart : p.cursor.peek.StartsStatement := ⟨hblank.1, hblank.2, hinput, hright⟩
      obtain ⟨c, left, tree, goes, arena, errors, log, hsuffix, hc, hturn, hread⟩ :=
        runs_turn hclosed htokens hstart (by omega) fun _ => next hpop (Nat.le_refl _) hinner
      cases goes with
      | true =>
        exact .whole htokens hc hread (next hc hsuffix.length_le hlater)
          (runs_body_turn hstart hturn)
      | false =>
        rw [TakesBody, htokens, hread]
        refine ⟨c, hc, runs_body_turn hstart hturn ?_⟩
        simp [BodyReading.after, BodyReading.done]

/-- The parser comes back from every list of tokens, with the program, the errors and the log
of `Program.ofTokens`. -/
theorem runs_program {cursor : Cursor} (hclosed : cursor.Closed)
    (hlimit : 4 * cursor.ahead.length + 6 ≤ limit) :
    ∃ tree q, Runs (program limit) (start cursor) tree q ∧
      Program.ofTokens cursor = (tree, q.errors, q.log) := by
  obtain ⟨c, -, hruns⟩ := takesBody (p := start cursor) hclosed hlimit
  exact ⟨_, _, .bind hruns (.bind (.get _) (.pure _ _)), rfl⟩

end body

end Parser

end LineScript
