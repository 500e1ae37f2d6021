import LineScript.Proofs.CommentSigns
import LineScript.Proofs.Containment
import LineScript.Proofs.LineNumbers
import LineScript.Proofs.Reading.Beginnings

/-!
# Comments and blank lines

Where a statement or a block ends with its line, it ends in front of a comment as well,
and a walk gets to the same place (`Walk.exists_passes_ending`). A line without a token
but a comment sign is passed without a trace (`Walk.passes_of_blank`). Together this says
that comments and blank lines are transparent (`Program.parse_commented`).
-/

namespace LineScript

/-! ## The end of a line -/

/-- The end of a line: comment signs and line ends, and at least one of them. -/
structure Token.LineEnd (tokens : List Token) : Prop where
  nonempty : tokens ≠ []
  blank : ∀ token ∈ tokens, token.kind = .newline ∨ token.kind = .hash

namespace Walk

variable {w u v : Walk} {tokens ending more left : List Token} {first newline : Token}
variable {look : Option Token} {b : Arena} {statement : Statement} {stop : Position}

/-- Comments and line ends leave no trace, whether they are read or dropped. -/
theorem passes_of_blank (w : Walk)
    (h : ∀ token ∈ tokens, token.kind = .newline ∨ token.kind = .hash) : w.Passes tokens w := by
  cases hmode : w.mode with
  | skipping depth =>
    refine passes_of_skipping hmode fun token htoken => ?_
    obtain hkind | hkind := h token htoken <;> simp [hkind]
  | reading =>
    induction tokens with
    | nil => exact fun _ _ => rfl
    | cons token tokens ih =>
      obtain ⟨hfirst, hlater⟩ := List.forall_mem_cons.mp h
      exact (passes_blank hmode hfirst).trans (ih hlater)

/-- What may end in front of a line end may end in front of it, taking it or not. -/
theorem exists_ends_of_lineEnd (h : Token.LineEnd ending)
    (behind : List Token) :
    ∃ rest, Ends (ending ++ behind) (rest ++ behind) ∧
      ∀ token ∈ rest, token.kind = .newline ∨ token.kind = .hash := by
  cases ending with
  | nil => exact absurd rfl h.nonempty
  | cons token ending =>
    obtain hline | hhash := h.blank token List.mem_cons_self
    · exact ⟨ending, .line hline, fun next hnext => h.blank next (List.mem_cons_of_mem _ hnext)⟩
    · exact ⟨token :: ending, .before (.inr (.inr hhash)), h.blank⟩

/-- A statement that ends with its line is read in front of any end of the line. -/
theorem passes_of_settled (hmode : w.mode = .reading) (hleaf : first.StartsLeaf)
    (hsettled : Statement.Settled (w.site stop) w.arena first tokens statement b)
    (hending : Token.LineEnd ending) :
    w.Passes (first :: (tokens ++ ending)) (add (.leaf statement) { w with arena := b }) := by
  intro stop' behind
  obtain ⟨rest, ends, hrest⟩ := exists_ends_of_lineEnd hending behind
  have hstep := step_of_settled hmode hleaf hsettled ends stop'
  rw [List.cons_append, List.append_assoc, run_of_step hstep]
  exact passes_of_blank _ hrest stop' behind

/-- A block that ends with its line is closed in front of any end of the line. -/
theorem passes_of_closed {parent : OpenBlock} {outer : List OpenBlock} (hmode : w.mode = .reading)
    (hright : first.kind = .rightBrace) (houter : w.outer = parent :: outer)
    (hending : Token.LineEnd ending) :
    w.Passes (first :: ending)
      (add (.block w.block.position w.block.table w.block.body)
        { w with mode := .reading, block := parent, outer }) := by
  intro stop behind
  obtain ⟨rest, ends, hrest⟩ := exists_ends_of_lineEnd hending behind
  have hnested : w.nested = true := nested_iff.mpr (by simp [houter])
  have hstep : w.step stop (first :: (ending ++ behind)) = _ :=
    step_of_closed hmode hright hnested
  rw [leave_of_ends houter ends] at hstep
  rw [List.cons_append, run_of_step hstep]
  exact passes_of_blank _ hrest stop behind

/-- Whatever ends with the last token of a line has nothing left in front of it. -/
theorem eq_nil_of_ends (h : Ends (more ++ [newline]) []) : more = [] := by
  have hlength : (more ++ [newline]).length ≤ 1 := by
    generalize more ++ [newline] = tokens at h
    cases h <;> simp
  simpa using hlength

section taken

variable (hmode : w.mode = .reading) (hnewline : newline.kind = .newline)

include hmode hnewline

/-- A statement that took the end of its line ends with any other end as well. -/
theorem passes_of_read (hleaf : first.StartsLeaf)
    (hread : (Statement.read (w.site stop) w.arena first (more ++ [newline])).outcome =
      .ok statement)
    (hrest : (Statement.read (w.site stop) w.arena first (more ++ [newline])).rest = [])
    (hending : Token.LineEnd ending) :
    w.Passes (first :: (more ++ ending))
      (add (.leaf statement) { w with
        arena := (Statement.read (w.site stop) w.arena first (more ++ [newline])).arena }) := by
  rw [Statement.read_eq_readUnfinished hleaf] at hread hrest ⊢
  obtain ⟨hout, ends⟩ := StatementReading.finish_eq_ok_iff.mp ⟨hread, hrest⟩
  have hgives : (Statement.readUnfinished { w.site stop with stop } w.arena first
      (more ++ [newline])).Gives (.ok statement) _ := ⟨hout, rfl⟩
  obtain ⟨taken, htaken, hsettled⟩ := Statement.settles_readUnfinished hgives
  -- The line end itself is not taken before the statement is read.
  have hmore : taken = more := by
    obtain ⟨-, rfl⟩ | ⟨rest, rfl, hleft⟩ := eq_nil_or_exists_more htaken
    · exact absurd hnewline (hsettled.inside newline List.mem_concat_self).1
    · have hends : Ends (rest ++ [newline]) [] := hleft ▸ ends
      rw [eq_nil_of_ends hends, List.append_nil]
  rw [hmore] at hsettled
  simp only [StatementReading.announce_arena, StatementReading.finish_arena]
  exact passes_of_settled hmode hleaf hsettled hending

/-- A step without an error that takes the end of a line takes any other end as well. -/
theorem Moves.passes_ending (h : Moves w first (more ++ [newline]) none v)
    (hinput : first.kind ≠ .endOfInput) (herrors : v.errors = w.errors)
    (hending : Token.LineEnd ending) : w.Passes (first :: (more ++ ending)) v := by
  have hstep := h.steps .start [] (by simp)
  rw [List.append_nil] at hstep
  by_cases hblank : first.kind = .newline ∨ first.kind = .hash
  · rw [step_of_blank hmode hblank] at hstep
    simp at hstep
  by_cases hleft : first.kind = .leftBrace
  · rw [step_of_leftBrace hmode hleft] at hstep
    simp at hstep
  by_cases hright : first.kind = .rightBrace
  · obtain ⟨parent, outer, houter, ends, rfl⟩ := closes_of_step hmode hright hstep herrors
    rw [eq_nil_of_ends ends]
    exact passes_of_closed hmode hright houter hending
  · rw [not_or] at hblank
    have hleaf : first.StartsLeaf := ⟨hblank.1, hblank.2, hinput, hleft, hright⟩
    obtain ⟨statement, hread, hrest, rfl⟩ := takes_of_step hmode hleaf hstep herrors
    exact passes_of_read hmode hnewline hleaf hread hrest hending

end taken

/-- The walk `u` has come from `w` over tokens of a line, and others of them are left. What
it does in front of any end of the line, `w` does from the beginning of the line. -/
def OnLine (w : Walk) (tokens : List Token) (newline : Token) (u : Walk) (left : List Token) :
    Prop :=
  (∃ ahead, left = ahead ++ [newline] ∧
      ∀ ending z, u.Passes (ahead ++ ending) z → w.Passes (tokens ++ ending) z) ∨
    left = [] ∧ ∀ ending, Token.LineEnd ending → w.Passes (tokens ++ ending) u

theorem OnLine.move {later : List Token} (h : OnLine w tokens newline u (first :: (later ++ left)))
    (hmove : Moves u first later look v) (hlook : ∀ next ∈ look, left.head? = some next)
    (hmode : u.mode = .reading) (hinput : first.kind ≠ .endOfInput)
    (hnewline : newline.kind = .newline) (herrors : v.errors = u.errors) :
    OnLine w tokens newline v left := by
  obtain ⟨ahead, hahead, hpasses⟩ | ⟨hnil, -⟩ := h
  case inr => cases hnil
  have hend : left = [] → look = none := by
    rintro rfl
    cases look with
    | none => rfl
    | some next => cases hlook next rfl
  cases ahead with
  | nil =>
    obtain ⟨rfl, hnil⟩ : first = newline ∧ later ++ left = [] := by simpa using hahead
    obtain ⟨rfl, rfl⟩ := List.append_eq_nil_iff.mp hnil
    have hstep := hmove.steps .start [] (by simp [hend rfl])
    rw [step_of_blank hmode (.inl hnewline)] at hstep
    cases hstep
    exact .inr ⟨rfl, fun ending hending => hpasses ending _ (passes_of_blank _ hending.blank)⟩
  | cons first' more =>
    obtain ⟨rfl, hmore⟩ : first = first' ∧ later ++ left = more ++ [newline] := by
      simpa using hahead
    obtain ⟨rfl, rfl⟩ | ⟨more', rfl, rfl⟩ := eq_nil_or_exists_more hmore.symm
    · rw [hend rfl] at hmove
      refine .inr ⟨rfl, fun ending hending => hpasses ending v ?_⟩
      exact hmove.passes_ending hmode hnewline hinput herrors hending
    · refine .inl ⟨more', rfl, fun ending z hz => hpasses ending z ?_⟩
      have hlook' : ∀ next ∈ look, (more' ++ ending).head? = some next := by
        intro next hnext
        cases more' with
        | nil =>
          have hnext' : newline = next := Option.some.inj (hlook next hnext)
          have hstands := hmove.stands next hnext (hmove.awake herrors hmode)
          simp [← hnext', hnewline] at hstands
        | cons token more' => exact hlook next hnext
      rw [List.cons_append, List.append_assoc]
      exact hmove.passes hlook' hz

/-- If a walk finds no error on a line, it gets to the same place whatever end the line
has. -/
theorem exists_passes_ending (hmode : w.mode = .reading) (hnewline : newline.kind = .newline)
    (hgoesOn : ∀ token ∈ tokens, token.kind ≠ .endOfInput) :
    ∃ v, w.Passes (tokens ++ [newline]) v ∧ Since w (tokens ++ [newline]) v [] ∧
      (v.errors = w.errors →
        ∀ ending, Token.LineEnd ending → w.Passes (tokens ++ ending) v) := by
  have hwhole : Token.WholeLines (tokens ++ [newline]) := by
    refine ⟨fun token htoken => ?_, fun last hlast => ?_⟩
    · obtain htoken | htoken := List.mem_append.mp htoken
      · exact hgoesOn token htoken
      · simp [List.mem_singleton.mp htoken, hnewline]
    · rw [List.getLast?_concat] at hlast
      cases hlast
      exact hnewline
  let P (u : Walk) (left : List Token) : Prop := Since w (tokens ++ [newline]) u left ∧
    (u.errors = w.errors → OnLine w tokens newline u left)
  have hmoves {u first later left look v} (hmove : Moves u first later look v)
      (hlook : ∀ next ∈ look, left.head? = some next) (h : P u (first :: (later ++ left))) :
      P v left := by
    obtain ⟨hsince, honline⟩ := h
    refine ⟨hsince.move hmove hlook, fun herrors => ?_⟩
    obtain ⟨found, hfound, -⟩ := hsince.errors
    obtain hsame | ⟨e, he, -⟩ := hmove.errors
    · have hu : u.errors = w.errors := hsame.symm.trans herrors
      have hinput := hwhole.goesOn first (hsince.ahead List.mem_cons_self)
      exact (honline hu).move hmove hlook (hsince.awake hu hmode) hinput hnewline hsame
    · rw [he, hfound] at herrors
      simp at herrors
  have hstart : P w (tokens ++ [newline]) :=
    ⟨.refl w _, fun _ => .inl ⟨tokens, rfl, fun _ _ hz => hz⟩⟩
  obtain ⟨v, hpasses, hsince, honline⟩ := exists_passes hmoves hwhole hstart
  refine ⟨v, hpasses, hsince, fun herrors => ?_⟩
  obtain ⟨ahead, hahead, -⟩ | ⟨-, hending⟩ := honline herrors
  · simp at hahead
  · exact hending

/-- Where no error is found, it does not matter where the input ends. -/
theorem run_of_noErrors (h : Token.WholeLines tokens) (hnone : (w.run stop tokens).errors = []) :
    w.errors = [] ∧ ∀ stop', w.run stop' tokens = w.run stop tokens := by
  obtain ⟨v, hpasses, hsince⟩ := w.exists_passes_of_wholeLines h
  obtain ⟨found, hfound, -⟩ := hsince.errors
  have hrun (stop : Position) : w.run stop tokens = v.run stop [] := by
    have hrun := hpasses stop []
    rwa [List.append_nil] at hrun
  rw [hrun] at hnone
  obtain ⟨hnone, -, hstays⟩ := run_nil_of_noErrors hnone
  rw [hfound, List.append_eq_nil_iff] at hnone
  refine ⟨hnone.1, fun stop' => ?_⟩
  rw [hrun, hrun, hstays, hstays]

end Walk

/-! ## The program of a text -/

/-- The number of a line when a new line has got the number `first`. -/
def Position.pushed (first line : Nat) : Nat :=
  if line < first then line else line + 1

namespace Cursor

variable {before after : List String} {line : String}

/-- The numbers of the lines around a new one. -/
theorem pushed_before : ∀ k < before.length, Position.pushed (before.length + 1) (1 + k) = 1 + k := by
  intro k hk
  rw [Position.pushed, if_pos (by omega)]

theorem pushed_after : ∀ k < after.length,
    Position.pushed (before.length + 1) (1 + before.length + k) = 1 + before.length + 1 + k := by
  intro k hk
  rw [Position.pushed, if_neg (by omega)]
  omega

theorem tokensFrom_pushed :
    tokensFrom 1 before ++ tokensFrom (1 + before.length + 1) after =
      (tokensFrom 1 (before ++ after)).map
        (Token.renumber (Position.pushed (before.length + 1))) := by
  rw [tokensFrom_append, List.map_append, ← tokensFrom_renumber pushed_before,
    ← tokensFrom_renumber pushed_after]

theorem errorsFrom_pushed :
    errorsFrom 1 before ++ errorsFrom (1 + before.length + 1) after =
      (errorsFrom 1 (before ++ after)).map
        (LexicalError.renumber (Position.pushed (before.length + 1))) := by
  rw [errorsFrom_append, List.map_append, ← errorsFrom_renumber pushed_before,
    ← errorsFrom_renumber pushed_after]

theorem closing_pushed (h : after ≠ []) :
    (ofLines (before ++ line :: after)).1.closing.position =
      (ofLines (before ++ after)).1.closing.position.renumber
        (Position.pushed (before.length + 1)) := by
  obtain rfl | ⟨middle, last, rfl⟩ := List.eq_nil_or_concat after
  · exact absurd rfl h
  · have hnew : before ++ line :: middle.concat last = before ++ line :: middle ++ [last] := by
      simp
    have hold : before ++ middle.concat last = before ++ middle ++ [last] := by simp
    rw [hnew, hold, closing_ofLines_concat, closing_ofLines_concat]
    simp only [Token.endAt, lineEnd, Position.renumber, Position.pushed, List.length_append,
      List.length_cons]
    rw [if_neg (by omega)]
    rfl

end Cursor

namespace Program

variable {lines before after : List String} {line text : String}

theorem parse_of_unscanned (h : (Cursor.ofLines lines).2 ≠ []) :
    (parse lines).program = .empty ∧
      (parse lines).errors = (Cursor.ofLines lines).2.map .lexical := by
  unfold parse
  simp only
  rw [if_neg (by simpa using h)]
  exact ⟨rfl, rfl⟩

theorem parse_eq_ofTokens (h : (Cursor.ofLines lines).2 = []) :
    (parse lines).program = (ofTokens (Cursor.ofLines lines).1).1 ∧
      (parse lines).errors = (ofTokens (Cursor.ofLines lines).1).2.1.map .grammar := by
  unfold parse
  simp only
  rw [if_pos (by simpa using h)]
  exact ⟨rfl, rfl⟩

/-- A silent line moves the lines behind it, and does nothing else. -/
theorem parse_silent (hafter : after ≠ []) (hsilent : Text.isSilent line.toList = true) :
    (parse (before ++ line :: after)).program =
        (parse (before ++ after)).program.renumber (Position.pushed (before.length + 1)) ∧
      (parse (before ++ line :: after)).errors =
        (parse (before ++ after)).errors.map
          (Diagnostic.renumber (Position.pushed (before.length + 1))) := by
  obtain ⟨herror, hblank⟩ := Cursor.lineTokens_of_isSilent hsilent (1 + before.length)
  have hlexical : (Cursor.ofLines (before ++ line :: after)).2 =
      (Cursor.ofLines (before ++ after)).2.map
        (LexicalError.renumber (Position.pushed (before.length + 1))) := by
    rw [Cursor.errors_ofLines, Cursor.errors_ofLines, ← Cursor.errorsFrom_pushed,
      Cursor.errorsFrom_append, Cursor.errorsFrom_cons, herror]
    rfl
  by_cases hscanned : (Cursor.ofLines (before ++ after)).2 = []
  case neg =>
    obtain ⟨hprogram, herrors⟩ := parse_of_unscanned hscanned
    have hscanned' : (Cursor.ofLines (before ++ line :: after)).2 ≠ [] := by
      rw [hlexical]
      simpa using hscanned
    obtain ⟨hprogram', herrors'⟩ := parse_of_unscanned hscanned'
    rw [hprogram, hprogram', herrors, herrors', hlexical, List.map_map, List.map_map]
    exact ⟨rfl, rfl⟩
  case pos =>
    rw [hscanned, List.map_nil] at hlexical
    obtain ⟨hprogram, herrors⟩ := parse_eq_ofTokens hscanned
    obtain ⟨hprogram', herrors'⟩ := parse_of_scanned hlexical
    let stop' := (Cursor.ofLines (before ++ line :: after)).1.closing.position
    let moved : Cursor :=
      { tokens := Cursor.tokensFrom 1 before ++ Cursor.tokensFrom (1 + before.length + 1) after
        closing := Token.endAt stop'
        position := 0 }
    -- The walk over all lines does what a walk does that does not meet the new one.
    have hrun : Walk.start.run stop' (Cursor.tokensFrom 1 (before ++ line :: after)) =
        Walk.start.run stop' moved.ahead := by
      obtain ⟨w, hpasses, -⟩ :=
        Walk.start.exists_passes_of_wholeLines (Cursor.wholeLines_tokensFrom 1 before)
      have hmoved : moved.ahead = moved.tokens := List.drop_zero
      rw [hmoved, Cursor.tokensFrom_append, Cursor.tokensFrom_cons, hpasses, hpasses]
      exact w.passes_of_blank hblank stop' _
    obtain ⟨hwalk, hfound⟩ := Walk.run_start moved
    have hahead : moved.ahead = (Cursor.ofLines (before ++ after)).1.ahead.map
        (Token.renumber (Position.pushed (before.length + 1))) := Cursor.tokensFrom_pushed
    obtain ⟨hrenumbered, hmapped⟩ := ofTokens_renumber _ hahead (Cursor.closing_pushed hafter)
    have hclosing : moved.closing.position = stop' := rfl
    rw [hclosing] at hwalk hfound
    rw [hprogram', herrors', hprogram, herrors, hrun, ← hrenumbered, hwalk, ← hfound, hmapped,
      List.map_map, List.map_map]
    exact ⟨rfl, rfl⟩

/-- A walk without errors does not notice a comment behind a line. -/
theorem run_commented {tokens signs : List Token} {text' : String} {stop : Position}
    (hnone : (Walk.start.run stop (Cursor.tokensFrom 1 (before ++ text :: after))).errors = [])
    (htokens : Token.ofLine (1 + before.length) text = .ok tokens)
    (htokens' : Token.ofLine (1 + before.length) text' = .ok (tokens ++ signs))
    (hsigns : ∀ token ∈ signs, token.kind = .hash) (stop' : Position) :
    Walk.start.run stop' (Cursor.tokensFrom 1 (before ++ text' :: after)) =
      Walk.start.run stop (Cursor.tokensFrom 1 (before ++ text :: after)) := by
  have hline := Cursor.wholeLines_lineTokens (1 + before.length) text
  have hrest := Cursor.wholeLines_tokensFrom (1 + before.length + 1) after
  simp only [Cursor.tokensFrom_append, Cursor.tokensFrom_cons] at hnone ⊢
  obtain ⟨w, hpasses, hsince⟩ :=
    Walk.start.exists_passes_of_wholeLines (Cursor.wholeLines_tokensFrom 1 before)
  rw [hpasses] at hnone
  rw [hpasses, hpasses]
  obtain ⟨hw, -⟩ := Walk.run_of_noErrors (hline.append hrest) hnone
  have hmode : w.mode = .reading := hsince.awake hw rfl
  rw [Cursor.lineTokens_of_ok htokens] at hnone hline ⊢
  have hgoesOn : ∀ token ∈ tokens, token.kind ≠ .endOfInput :=
    fun token htoken => hline.goesOn token (List.mem_append_left _ htoken)
  have hnewline : (Cursor.newlineOf (1 + before.length) text).kind = .newline := rfl
  obtain ⟨v, hpasses, -, hending⟩ := Walk.exists_passes_ending hmode hnewline hgoesOn
  rw [hpasses] at hnone
  obtain ⟨hv, hstop⟩ := Walk.run_of_noErrors hrest hnone
  have hend : Token.LineEnd (signs ++ [Cursor.newlineOf (1 + before.length) text']) := by
    refine ⟨by simp, fun token htoken => ?_⟩
    obtain htoken | htoken := List.mem_append.mp htoken
    · exact .inr (hsigns token htoken)
    · exact .inl (by rw [List.mem_singleton.mp htoken]; rfl)
  have hpasses' := hending (hv.trans hw.symm) _ hend
  rw [hpasses, Cursor.lineTokens_of_ok htokens', List.append_assoc tokens, hpasses']
  exact hstop stop'

/-- A comment behind a line of a program without errors changes nothing. -/
theorem parse_comment (h : (parse (before ++ text :: after)).errors = []) (comment : String) :
    (parse (before ++ (text ++ " #" ++ comment) :: after)).program =
        (parse (before ++ text :: after)).program ∧
      (parse (before ++ (text ++ " #" ++ comment) :: after)).errors = [] := by
  have hscanned := errors_ofLines_of_parse h
  obtain ⟨hprogram, herrors⟩ := parse_of_scanned hscanned
  rw [Cursor.errors_ofLines, Cursor.errorsFrom_eq_nil_iff, List.forall_mem_append,
    List.forall_mem_cons] at hscanned
  obtain ⟨hbefore, htext, hafter⟩ := hscanned
  have hcommented (line : Nat) : Cursor.lineError? line (text ++ " #" ++ comment) = none := by
    obtain ⟨tokens, htokens⟩ := Cursor.lineError?_eq_none_iff.mp (htext line)
    obtain ⟨signs, -, hline⟩ := Cursor.ofLine_commented htokens comment
    exact Cursor.lineError?_eq_none_iff.mpr ⟨_, hline⟩
  have hscanned' : (Cursor.ofLines (before ++ (text ++ " #" ++ comment) :: after)).2 = [] := by
    rw [Cursor.errors_ofLines, Cursor.errorsFrom_eq_nil_iff, List.forall_mem_append,
      List.forall_mem_cons]
    exact ⟨hbefore, hcommented, hafter⟩
  obtain ⟨hprogram', herrors'⟩ := parse_of_scanned hscanned'
  rw [h] at herrors
  have hnone := List.map_eq_nil_iff.mp herrors.symm
  obtain ⟨tokens, htokens⟩ := Cursor.lineError?_eq_none_iff.mp (htext (1 + before.length))
  obtain ⟨signs, hsigns, htokens'⟩ := Cursor.ofLine_commented htokens comment
  have hrun := run_commented hnone htokens htokens' hsigns
  rw [hprogram', herrors', hprogram, hrun, hnone]
  exact ⟨rfl, rfl⟩

/-- Comments and blank lines are transparent. A line that is blank up to a comment sign
only moves the lines behind it: the tree, the arena and the errors stay as they were, with
the new line numbers, and the root block stays at the front of the input. A comment behind
a line of a program without errors changes nothing at all. -/
theorem parse_commented (lines : List String) (i : Nat) :
    (∀ line : String, i < lines.length → Text.isSilent line.toList = true →
      (parse (lines.insertIdx i line)).program =
          (parse lines).program.renumber (Position.pushed (i + 1)) ∧
        (parse (lines.insertIdx i line)).program.root.position = .start ∧
        (parse (lines.insertIdx i line)).errors =
          (parse lines).errors.map (Diagnostic.renumber (Position.pushed (i + 1)))) ∧
    (∀ comment : String, (parse lines).errors = [] →
      (parse (lines.modify i (· ++ " #" ++ comment))).program = (parse lines).program ∧
        (parse (lines.modify i (· ++ " #" ++ comment))).errors = []) := by
  constructor
  · intro line hi hsilent
    obtain ⟨before, after, rfl, rfl, hinsert⟩ :=
      List.exists_of_modifyTailIdx (List.cons line) (Nat.le_of_lt hi)
    have hafter : after ≠ [] := by
      rintro rfl
      simp at hi
    have hlines : (before ++ after).insertIdx before.length line = before ++ line :: after := hinsert
    rw [hlines]
    obtain ⟨hprogram, herrors⟩ := parse_silent hafter hsilent
    refine ⟨hprogram, ?_, herrors⟩
    unfold parse
    simp only
    split <;> rfl
  · intro comment h
    by_cases hi : i < lines.length
    · rw [List.modify_eq_take_cons_drop hi]
      have hlines : lines = lines.take i ++ lines[i] :: lines.drop (i + 1) := by
        rw [← List.drop_eq_getElem_cons hi, List.take_append_drop]
      rw [hlines] at h
      obtain ⟨hprogram, herrors⟩ := parse_comment h comment
      rw [← hlines] at hprogram
      exact ⟨hprogram, herrors⟩
    · rw [List.modify_eq_self (Nat.le_of_not_lt hi)]
      exact ⟨rfl, h⟩

/-- A comment with a brace inside a block, whose error moves down by a line, and a comment with a
quote behind a string that holds a comment sign. -/
theorem parse_commented_nested :
    (1 < ["\x7b", "x = 1", "\x7d"].length ∧ Text.isSilent " \t# \x7d".toList = true ∧
      (parse ["\x7b", " \t# \x7d", "x = 1", "\x7d"]).errors =
        [.grammar (.undeclared ⟨.identifier, "x", ⟨3, 1⟩⟩)]) ∧
    ((parse ["var s string = \"#\"", "println s"]).errors = [] ∧
      (parse ["var s string = \"#\" # \"", "println s"]).program =
        (parse ["var s string = \"#\"", "println s"]).program) := by
  have herrors : (parse ["\x7b", "x = 1", "\x7d"]).errors =
      [.grammar (.undeclared ⟨.identifier, "x", ⟨2, 1⟩⟩)] := by decide +kernel
  have hsilent : Text.isSilent " \t# \x7d".toList = true := by decide +kernel
  have hread : (parse ["var s string = \"#\"", "println s"]).errors = [] := by decide +kernel
  refine ⟨⟨by decide, hsilent, ?_⟩, hread, ?_⟩
  · have hmoved := ((parse_commented ["\x7b", "x = 1", "\x7d"] 1).1 _ (by decide) hsilent).2.2
    rw [herrors] at hmoved
    exact hmoved
  · exact ((parse_commented _ 0).2 " \"" hread).1

end Program

end LineScript
