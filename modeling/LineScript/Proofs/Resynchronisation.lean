import LineScript.Proofs.Abandonment
import LineScript.Proofs.Reading.Braces
import LineScript.Proofs.RuntimeErrors

/-!
# Where a failed statement ends its block

Behind a statement that failed the rest of its line is dropped, and in a nested block a closing
brace ends the dropping and with it the block. Braces that were opened among the dropped tokens
are not counted. `Recovery.skipBlock`, which drops the rest of a block, does count them, and so
does `Token.blockEnd`.

From the first token of a failed statement to such a brace never more blocks are closed than
were opened (`Token.Covered`). Hence the brace comes no later than the one that closes the block,
and it is that one exactly if the tokens in front of it close all that they open
(`Statement.resync_at_rightBrace`). Where the dropped tokens open a block the brace comes too
early, and the brace that should have closed the block is left over.
-/

namespace LineScript

variable {token brace : Token} {tokens rest later left taken dropped : List Token} {depth : Nat}

/-! ## Tokens that close no more than they open -/

namespace Token

/-- With so many blocks open in front of the tokens, every closing brace among them has a
partner. -/
def Covered (depth : Nat) (tokens : List Token) : Prop :=
  ∀ n, closed (tokens.take n) ≤ depth + opened (tokens.take n)

@[simp] theorem opened_nil : opened [] = 0 := rfl
@[simp] theorem closed_nil : closed [] = 0 := rfl

@[simp] theorem opened_append (first second : List Token) :
    opened (first ++ second) = opened first + opened second :=
  List.countP_append

@[simp] theorem closed_append (first second : List Token) :
    closed (first ++ second) = closed first + closed second :=
  List.countP_append

theorem opened_cons (token : Token) (tokens : List Token) :
    opened (token :: tokens) = opened tokens + if token.kind = .leftBrace then 1 else 0 := by
  simp [opened, List.countP_cons]

theorem closed_cons (token : Token) (tokens : List Token) :
    closed (token :: tokens) = closed tokens + if token.kind = .rightBrace then 1 else 0 := by
  simp [closed, List.countP_cons]

theorem opened_eq_zero_iff : opened tokens = 0 ↔ ∀ token ∈ tokens, token.kind ≠ .leftBrace := by
  simp [opened, List.countP_eq_zero]

theorem closed_eq_zero_iff : closed tokens = 0 ↔ ∀ token ∈ tokens, token.kind ≠ .rightBrace := by
  simp [closed, List.countP_eq_zero]

namespace Covered

theorem closed_le (h : Covered depth tokens) : closed tokens ≤ depth + opened tokens := by
  simpa using h tokens.length

theorem of_no_rightBrace (h : ∀ token ∈ tokens, token.kind ≠ .rightBrace) :
    Covered depth tokens := by
  intro n
  rw [closed_eq_zero_iff.mpr fun token htoken => h token (List.mem_of_mem_take htoken)]
  exact Nat.zero_le _

theorem append (hfirst : Covered 0 taken) (hsecond : Covered depth tokens) :
    Covered depth (taken ++ tokens) := by
  intro n
  have hfirst := hfirst n
  have hsecond := hsecond (n - taken.length)
  rw [List.take_append, opened_append, closed_append]
  omega

theorem cons_iff : Covered depth (token :: tokens) ↔
    ∀ n, closed (token :: tokens.take n) ≤ depth + opened (token :: tokens.take n) := by
  constructor
  · exact fun h n => h (n + 1)
  · intro h n
    cases n with
    | zero => exact Nat.zero_le _
    | succ n => exact h n

theorem leftBrace_cons_iff (hkind : token.kind = .leftBrace) :
    Covered depth (token :: tokens) ↔ Covered (depth + 1) tokens := by
  rw [cons_iff]
  simp [Covered, opened_cons, closed_cons, hkind, Nat.add_assoc, Nat.add_comm 1]

theorem rightBrace_cons_iff (hkind : token.kind = .rightBrace) :
    Covered (depth + 1) (token :: tokens) ↔ Covered depth tokens := by
  rw [cons_iff]
  simp [Covered, opened_cons, closed_cons, hkind, Nat.add_right_comm depth 1]

theorem not_zero_rightBrace_cons (hkind : token.kind = .rightBrace) :
    ¬ Covered 0 (token :: tokens) := by
  intro h
  simpa [opened, closed, hkind] using h 1

theorem other_cons_iff (hkind : token.isBrace = false) :
    Covered depth (token :: tokens) ↔ Covered depth tokens := by
  obtain ⟨hleft, hright⟩ := isBrace_eq_false_iff.mp hkind
  rw [cons_iff]
  simp [Covered, opened_cons, closed_cons, hleft, hright]

end Covered

/-! ## The end of a block -/

/-- Covered tokens are in front of the end of a block, and the block ends behind them if they
close all that they open and a closing brace comes next. -/
theorem le_blockEnd_of_covered (later : List Token) (h : Covered 0 taken)
    (hbrace : brace.kind = .rightBrace) :
    taken.length ≤ blockEnd true (taken ++ brace :: later) ∧
      (taken.length = blockEnd true (taken ++ brace :: later) ↔ opened taken = closed taken) := by
  have hle : taken.length ≤ blockEnd true (taken ++ brace :: later) := by
    rw [blockEnd, if_pos rfl]
    refine List.le_findIdx_of_not (by simp) fun m hm => ?_
    simpa [List.take_append_of_le_length (Nat.succ_le_of_lt hm)] using h (m + 1)
  refine ⟨hle, fun hend => ?_, fun hsame => ?_⟩
  · obtain hnil | ⟨-, hsame, -⟩ := blockEnd_cases true (taken ++ brace :: later)
    · simp [← hend] at hnil
    · rw [← hend, List.take_left] at hsame
      exact hsame.symm
  · by_contra hne
    have hafter := closed_le_opened_of_le_blockEnd (Nat.lt_of_le_of_ne hle hne)
    have htake : (taken ++ brace :: later).take (taken.length + 1) = taken ++ [brace] := by
      rw [List.take_length_add_append]
      rfl
    rw [htake, opened_append, closed_append] at hafter
    simp only [opened_cons, closed_cons, opened_nil, closed_nil, hbrace, reduceCtorEq,
      if_true, if_false] at hafter
    omega

end Token

/-! ## Dropping tokens -/

namespace Recovery

variable {stop : Position} {nested : Bool}

/-- A block is dropped past tokens that do not close it. -/
theorem skipBlock_covered (hinput : ∀ token ∈ taken, token.kind ≠ .endOfInput)
    (h : Token.Covered depth taken) :
    skipBlock stop true depth (taken ++ rest) =
      skipBlock stop true (depth + Token.opened taken - Token.closed taken) rest := by
  induction taken generalizing depth with
  | nil => rfl
  | cons token taken ih =>
    obtain ⟨hfirst, hinput⟩ := List.forall_mem_cons.mp hinput
    by_cases hleft : token.kind = .leftBrace
    · have hlater := (Token.Covered.leftBrace_cons_iff hleft).mp h
      simp only [List.cons_append, skipBlock, hleft, ih hinput hlater]
      simp [Token.opened_cons, Token.closed_cons, hleft, Nat.add_assoc, Nat.add_comm 1]
    by_cases hright : token.kind = .rightBrace
    · cases depth with
      | zero => exact absurd h (Token.Covered.not_zero_rightBrace_cons hright)
      | succ depth =>
        have hlater := (Token.Covered.rightBrace_cons_iff hright).mp h
        simp only [List.cons_append, skipBlock, hright]
        simp [ih hinput hlater, Token.opened_cons, Token.closed_cons, hright]
        congr 1
        omega
    · have hother := Token.isBrace_eq_false_iff.mpr ⟨hleft, hright⟩
      have hlater := (Token.Covered.other_cons_iff hother).mp h
      simp [skipBlock, ih hinput hlater, Token.opened_cons, Token.closed_cons, hleft, hright]

theorem skipBlock_cons_suffix (stop : Position) (nested : Bool) (depth : Nat) (token : Token)
    (rest : List Token) :
    (skipBlock stop nested depth (token :: rest)).2 <:+ rest := by
  simp only [skipBlock]
  split
  · exact List.suffix_rfl
  · exact skipBlock_suffix ..
  · split
    · exact List.suffix_rfl
    · exact skipBlock_suffix ..
  · exact skipBlock_suffix ..

/-- A block is never dropped without a token, unless it is not closed at all. -/
theorem skipBlock_ne : skipBlock stop true depth later ≠ (none, later) := by
  cases later with
  | nil => simp [skipBlock]
  | cons token rest =>
    intro h
    have hlength := (skipBlock_cons_suffix stop true depth token rest).length_le
    rw [h, List.length_cons] at hlength
    omega

theorem skipBlock_rightBrace_iff (hbrace : brace.kind = .rightBrace) :
    skipBlock stop true depth (brace :: later) = (none, later) ↔ depth = 0 := by
  simp only [skipBlock, hbrace, Bool.true_and, decide_eq_true_eq]
  by_cases hdepth : depth = 0
  · rw [if_pos hdepth]
    exact iff_of_true rfl hdepth
  · rw [if_neg hdepth]
    exact iff_of_false skipBlock_ne hdepth

/-- In a nested block no closing brace is dropped with the rest of a statement. -/
theorem exists_dropped (tokens : List Token) :
    ∃ dropped, tokens = dropped ++ resync true tokens ∧
      ∀ token ∈ dropped, token.kind ≠ .rightBrace := by
  induction tokens with
  | nil => exact ⟨[], rfl, by simp⟩
  | cons token rest ih =>
    obtain ⟨dropped, hrest, hdropped⟩ := ih
    by_cases hinput : token.kind = .endOfInput
    · exact ⟨[], by simp [resync, hinput], by simp⟩
    by_cases hright : token.kind = .rightBrace
    · exact ⟨[], by simp [resync, hright], by simp⟩
    by_cases hline : token.kind = .newline
    · exact ⟨[token], by simp [resync, hline], by simp [hright]⟩
    · refine ⟨token :: dropped, ?_, List.forall_mem_cons.mpr ⟨hright, hdropped⟩⟩
      rw [resync_of_dropped hinput hline fun h => hright h.1, List.cons_append, ← hrest]

/-- Outside of all blocks dropping ends behind a line end or at the end of input. -/
theorem resync_false_ne (hline : ∀ token ∈ dropped, token.kind ≠ .newline)
    (hbrace : brace.kind = .rightBrace) :
    resync false (dropped ++ brace :: later) ≠ brace :: later := by
  induction dropped with
  | nil =>
    intro h
    have hlength := (resync_suffix false later).length_le
    simp only [List.nil_append, resync, hbrace, Bool.false_eq_true, if_false] at h
    rw [h, List.length_cons] at hlength
    omega
  | cons token dropped ih =>
    obtain ⟨hfirst, hline⟩ := List.forall_mem_cons.mp hline
    by_cases hinput : token.kind = .endOfInput
    · intro h
      simp only [List.cons_append, resync, hinput, List.cons.injEq] at h
      rw [h.1, hbrace] at hinput
      cases hinput
    · rw [List.cons_append, resync_of_dropped hinput hfirst (by simp)]
      exact ih hline

end Recovery

/-! ## Reading -/

namespace Token

theorem not_isBrace_of_kept (left : List Token)
    (h : left.filter isBrace = (taken ++ left).filter isBrace) :
    ∀ token ∈ taken, token.isBrace = false := by
  rw [List.filter_append, List.self_eq_append_left, List.filter_eq_nil_iff] at h
  simpa using h

/-- The second tokens come behind the first, and what stands between them is covered. -/
def CoveredUpTo (depth : Nat) (tokens left : List Token) : Prop :=
  ∃ taken, tokens = taken ++ left ∧ Covered depth taken

namespace CoveredUpTo

theorem refl (depth : Nat) (tokens : List Token) : CoveredUpTo depth tokens tokens :=
  ⟨[], rfl, .of_no_rightBrace (by simp)⟩

theorem trans (hfirst : CoveredUpTo 0 tokens rest) (hsecond : CoveredUpTo depth rest left) :
    CoveredUpTo depth tokens left := by
  obtain ⟨taken, rfl, hfirst⟩ := hfirst
  obtain ⟨taken', rfl, hsecond⟩ := hsecond
  exact ⟨taken ++ taken', (List.append_assoc ..).symm, hfirst.append hsecond⟩

theorem other (hkind : token.isBrace = false) : CoveredUpTo 0 (token :: rest) rest :=
  ⟨[token], rfl, .of_no_rightBrace (by simpa using (isBrace_eq_false_iff.mp hkind).2)⟩

theorem leftBrace (hkind : token.kind = .leftBrace) (h : CoveredUpTo (depth + 1) rest left) :
    CoveredUpTo depth (token :: rest) left := by
  obtain ⟨taken, rfl, h⟩ := h
  exact ⟨token :: taken, rfl, (Covered.leftBrace_cons_iff hkind).mpr h⟩

theorem rightBrace (hkind : token.kind = .rightBrace) (h : CoveredUpTo depth rest left) :
    CoveredUpTo (depth + 1) (token :: rest) left := by
  obtain ⟨taken, rfl, h⟩ := h
  exact ⟨token :: taken, rfl, (Covered.rightBrace_cons_iff hkind).mpr h⟩

/-- Tokens can be taken freely if no brace is among them. -/
theorem of_kept (hsuffix : left <:+ tokens)
    (hkept : left.filter isBrace = tokens.filter isBrace) : CoveredUpTo depth tokens left := by
  obtain ⟨taken, rfl⟩ := hsuffix
  refine ⟨taken, rfl, .of_no_rightBrace fun token htoken => ?_⟩
  exact (isBrace_eq_false_iff.mp (not_isBrace_of_kept left hkept token htoken)).2

end CoveredUpTo

end Token

theorem Recovery.coveredUpTo_resync (tokens : List Token) :
    Token.CoveredUpTo 0 tokens (resync true tokens) := by
  obtain ⟨dropped, htokens, hdropped⟩ := exists_dropped tokens
  exact ⟨dropped, htokens, .of_no_rightBrace hdropped⟩

theorem Recovery.coveredUpTo_skipBlock (stop : Position) (depth : Nat) (tokens : List Token) :
    Token.CoveredUpTo (depth + 1) tokens (skipBlock stop true depth tokens).2 := by
  induction tokens generalizing depth with
  | nil => exact .refl _ _
  | cons token rest ih =>
    simp only [skipBlock]
    split
    case h_1 hinput =>
      exact (Token.CoveredUpTo.other (Token.isBrace_of_kind hinput (by simp))).trans (.refl _ _)
    case h_2 hleft => exact .leftBrace hleft (ih (depth + 1))
    case h_3 hright =>
      refine .rightBrace hright ?_
      cases depth with
      | zero => exact .refl _ _
      | succ depth => exact ih depth
    case h_4 hinput hleft hright =>
      have hother := Token.isBrace_eq_false_iff.mpr ⟨hleft, hright⟩
      exact (Token.CoveredUpTo.other hother).trans (ih depth)

section reading

variable {site : Site} {a b : Arena} {body : List Statement} {errors : List SyntaxError}

theorem Site.nested_inner (site : Site) (table : TableId) : (site.inner table).nested = true := by
  simp [nested, inner]

theorem Ends.coveredUpTo (h : Ends tokens left) : Token.CoveredUpTo depth tokens left :=
  .of_kept h.suffix h.filter_isBrace

theorem Token.StartsLeaf.coveredUpTo_read (h : token.StartsLeaf) (site : Site) (a : Arena)
    (rest : List Token) :
    CoveredUpTo 0 (token :: rest) (Statement.read site a token rest).rest := by
  have hkept := (Statement.braceless_read site a rest h).kept
  obtain ⟨-, -, -, hleft, hright⟩ := h
  exact (CoveredUpTo.other (isBrace_eq_false_iff.mpr ⟨hleft, hright⟩)).trans
    (.of_kept (Statement.read site a token rest).suffix hkept)

/-- With one block open in front of it, a nested body closes no block that is not open. -/
theorem BodyReads.coveredUpTo (h : BodyReads site a tokens body left b errors)
    (hnested : site.nested = true) : Token.CoveredUpTo 1 tokens left := by
  induction h with
  | ended | stopped => exact .refl _ _
  | blank hkind _ ih =>
    refine (Token.CoveredUpTo.other ?_).trans (ih hnested)
    obtain hkind | hkind := hkind <;> exact Token.isBrace_of_kind hkind (by simp)
  | closed hkind => exact .rightBrace hkind (.refl _ _)
  | stray _ hroot =>
    rw [hnested] at hroot
    cases hroot
  | leaf hleaf _ _ ih => exact (hleaf.coveredUpTo_read _ _ _).trans (ih hnested)
  | leafFailed hleaf _ _ _ ih =>
    rw [hnested] at ih
    exact (hleaf.coveredUpTo_read _ _ _).trans ((Recovery.coveredUpTo_resync _).trans (ih rfl))
  | leafAborted hleaf =>
    rw [hnested]
    exact (hleaf.coveredUpTo_read _ _ _).trans (Recovery.coveredUpTo_skipBlock _ 0 _)
  | block hkind _ ends _ ihinner ihouter =>
    have hblock := Token.CoveredUpTo.leftBrace hkind (ihinner (Site.nested_inner ..))
    exact (hblock.trans ends.coveredUpTo).trans (ihouter hnested)
  | blockFailed hkind _ _ _ ihinner ihouter =>
    have hblock := Token.CoveredUpTo.leftBrace hkind (ihinner (Site.nested_inner ..))
    rw [hnested] at ihouter
    exact hblock.trans ((Recovery.coveredUpTo_resync _).trans (ihouter rfl))

/-- A statement closes no block that it did not open. -/
theorem Token.StartsStatement.coveredUpTo_read (h : token.StartsStatement) (site : Site) (a : Arena)
    (rest : List Token) :
    CoveredUpTo 0 (token :: rest) (Statement.read site a token rest).rest := by
  obtain ⟨hline, hhash, hinput, hright⟩ := h
  by_cases hleft : token.kind = .leftBrace
  · have hbody := (bodyReads_readBody (site.inner (a.openTable (some site.table)).1)
      (a.openTable (some site.table)).2 rest).coveredUpTo (site.nested_inner _)
    obtain ⟨-, -, ⟨ends, -⟩ | ⟨found, closed, hclosed, -, hfound, -⟩⟩ :=
      Statement.read_of_leftBrace site a rest hleft
    · exact (CoveredUpTo.leftBrace hleft hbody).trans ends.coveredUpTo
    · rw [hfound, ← hclosed]
      exact .leftBrace hleft hbody
  · exact StartsLeaf.coveredUpTo_read ⟨hline, hhash, hinput, hleft, hright⟩ site a rest

end reading

/-! ## Where the block ends -/

namespace Statement

variable {site : Site} {a : Arena}

/-- The statement that begins with `token` failed, and dropping the rest of its line came to a
closing brace. Of its tokens `dropped` were not read. -/
structure StopsAt (site : Site) (a : Arena) (token : Token) (rest dropped : List Token)
    (brace : Token) (later : List Token) : Prop where
  starts : token.StartsStatement
  fails : ∃ e, (Statement.read site a token rest).outcome = .error e ∧ e.abortsBlock = false
  unread : (Statement.read site a token rest).rest = dropped ++ brace :: later
  oneLine : ∀ token ∈ dropped, token.kind ≠ .newline
  resyncs : Recovery.resync site.nested (Statement.read site a token rest).rest = brace :: later
  isBrace : brace.kind = .rightBrace

namespace StopsAt

variable (h : StopsAt site a token rest dropped brace later)

include h

theorem nested : site.nested = true := by
  cases hnested : site.nested with
  | true => rfl
  | false =>
    have hresyncs := h.resyncs
    rw [hnested, h.unread] at hresyncs
    exact absurd hresyncs (Recovery.resync_false_ne h.oneLine h.isBrace)

theorem closed_dropped : Token.closed dropped = 0 := by
  obtain ⟨dropped', hunread, hdropped⟩ :=
    Recovery.exists_dropped (Statement.read site a token rest).rest
  have hresyncs := h.resyncs
  rw [h.nested] at hresyncs
  rw [hresyncs, h.unread] at hunread
  rw [List.append_cancel_right hunread]
  exact Token.closed_eq_zero_iff.mpr hdropped

/-- The brace ends the body that the statement is in. -/
theorem rest_readBody : (readBody site a (token :: rest)).rest = later := by
  obtain ⟨e, hread, hgoes⟩ := h.fails
  have hbody : (readBody site a (token :: rest)).rest =
      (readBody site (Statement.read site a token rest).arena
        (Recovery.resync site.nested (Statement.read site a token rest).rest)).rest := by
    rw [readBody_of_read_error h.starts rfl hread hgoes]
    rfl
  rw [hbody, h.resyncs, readBody_of_nested h.isBrace h.nested]
  rfl

end StopsAt

/-- A number begins no statement, and all that follows it is dropped. -/
theorem stopsAt_of_integer (dropped : List Token) (hkind : token.kind = .integer)
    (hline : ∀ token ∈ dropped, token.kind ≠ .newline) (hbrace : brace.kind = .rightBrace)
    (hresyncs : Recovery.resync site.nested (dropped ++ brace :: later) = brace :: later) :
    StopsAt site a token (dropped ++ brace :: later) dropped brace later := by
  have hread : Statement.read site a token (dropped ++ brace :: later) =
      (StatementReading.plain a (.stay _ (.error (.unexpected token)))).announce token := by
    rw [Statement.read]
    simp only [hkind]
  have hstarts : token.StartsStatement := by simp [Token.StartsStatement, hkind]
  refine ⟨hstarts, ⟨.unexpected token, ?_, rfl⟩, ?_, hline, ?_, hbrace⟩
  · rw [hread]
    rfl
  · rw [hread]
    rfl
  · rw [hread]
    exact hresyncs

/-- Where dropping the rest of a failed statement comes to a closing brace, the block ends. The
brace never comes behind the one that closes the block, and it is that one exactly if the tokens
that were read close all blocks that they open and those that were dropped open none. A statement
that is no block has no brace among the tokens that were read. -/
theorem resync_at_rightBrace (h : StopsAt site a token rest dropped brace later) :
    ∃ own, token :: rest = own ++ dropped ++ brace :: later ∧
      site.nested = true ∧ (readBody site a (token :: rest)).rest = later ∧
      (own ++ dropped).length ≤ Token.blockEnd true (token :: rest) ∧
      ((own ++ dropped).length = Token.blockEnd true (token :: rest) ↔
        Token.opened own = Token.closed own ∧ ∀ token ∈ dropped, token.kind ≠ .leftBrace) ∧
      ((∀ token ∈ own ++ dropped, token.kind ≠ .endOfInput) →
        (Recovery.skipBlock site.stop true 0 (token :: rest) = (none, later) ↔
          (own ++ dropped).length = Token.blockEnd true (token :: rest))) ∧
      (token.kind ≠ .leftBrace → ∀ token ∈ own, token.isBrace = false) := by
  obtain ⟨own, hown, hcovered⟩ := h.starts.coveredUpTo_read site a rest
  rw [h.unread, ← List.append_assoc] at hown
  have hdropped := h.closed_dropped
  have htaken : Token.Covered 0 (own ++ dropped) :=
    hcovered.append (.of_no_rightBrace (Token.closed_eq_zero_iff.mp hdropped))
  obtain ⟨hle, hend⟩ := Token.le_blockEnd_of_covered later htaken h.isBrace
  have hcounts : Token.opened (own ++ dropped) = Token.closed (own ++ dropped) ↔
      Token.opened own = Token.closed own ∧ ∀ token ∈ dropped, token.kind ≠ .leftBrace := by
    have hclosed := hcovered.closed_le
    rw [← Token.opened_eq_zero_iff, Token.opened_append, Token.closed_append, hdropped]
    omega
  rw [hown]
  refine ⟨own, rfl, h.nested, hown ▸ h.rest_readBody, hle, hend.trans hcounts, fun hinput => ?_, ?_⟩
  · have hclosed := htaken.closed_le
    rw [hend, Recovery.skipBlock_covered hinput htaken, Recovery.skipBlock_rightBrace_iff h.isBrace]
    omega
  · intro hleft
    obtain ⟨hline, hhash, hinput, hright⟩ := h.starts
    have hother : token.isBrace = false := Token.isBrace_eq_false_iff.mpr ⟨hleft, hright⟩
    have hkept := (braceless_read site a rest ⟨hline, hhash, hinput, hleft, hright⟩).kept
    refine Token.not_isBrace_of_kept (dropped ++ brace :: later) ?_
    rw [← List.append_assoc, ← hown, List.filter_cons_of_neg (by simp [hother]), ← hkept, h.unread]

/-- A number begins no statement. Of a line `1 + x } y` the sum is dropped, the brace closes the
block, and what stands behind it is left. -/
theorem resync_at_rightBrace_dropped :
    let one : Token := ⟨.integer, "1", ⟨2, 1⟩⟩
    let plus : Token := ⟨.plus, "+", ⟨2, 3⟩⟩
    let x : Token := ⟨.identifier, "x", ⟨2, 5⟩⟩
    let close : Token := ⟨.rightBrace, "\x7d", ⟨2, 7⟩⟩
    let y : Token := ⟨.identifier, "y", ⟨2, 9⟩⟩
    let site := (Site.outermost ⟨2, 10⟩).inner ⟨1⟩
    StopsAt site .empty one [plus, x, close, y] [plus, x] close [y] ∧
      (readBody site .empty [one, plus, x, close, y]).rest = [y] ∧
      Token.blockEnd true [one, plus, x, close, y] = 3 ∧
      Recovery.skipBlock site.stop true 0 [one, plus, x, close, y] = (none, [y]) := by
  intro one plus x close y site
  have hstops : StopsAt site .empty one [plus, x, close, y] [plus, x] close [y] :=
    stopsAt_of_integer [plus, x] rfl (by decide) rfl rfl
  obtain ⟨own, hown, -, hrest, -, hend, hskip, -⟩ := resync_at_rightBrace hstops
  have hfront : own ++ [plus, x, close, y] = [one] ++ [plus, x, close, y] := by
    simpa using hown.symm
  obtain rfl : own = [one] := List.append_cancel_right hfront
  have hthree : 3 = Token.blockEnd true [one, plus, x, close, y] :=
    hend.mpr ⟨by decide, by decide⟩
  exact ⟨hstops, hrest, hthree.symm, (hskip (by decide)).mpr hthree⟩

/-- Of a line `1 { }` in a block the brace closes what the line opened, and yet it ends the block.
The brace on the next line, which closes the block, is left without a partner. -/
theorem resync_at_inner_rightBrace :
    let lines := ["\x7b", "1 \x7b \x7d", "\x7d"]
    let tokens := (Cursor.ofLines lines).1.ahead.drop 2
    let site := (Site.outermost ⟨3, 2⟩).inner ⟨1⟩
    (∃ one opening closing later, tokens = one :: opening :: closing :: later ∧
      StopsAt site .empty one (opening :: closing :: later) [opening] closing later ∧
      2 < Token.blockEnd true tokens ∧
      Recovery.skipBlock site.stop true 0 tokens ≠ (none, later)) ∧
    (Program.parse lines).errors =
      [.grammar ⟨⟨2, 1⟩, .unexpectedToken "1"⟩, .grammar ⟨⟨3, 1⟩, .unmatchedClosingBrace⟩] := by
  intro lines tokens site
  have htokens : tokens =
      [⟨.integer, "1", ⟨2, 1⟩⟩, ⟨.leftBrace, "\x7b", ⟨2, 3⟩⟩, ⟨.rightBrace, "\x7d", ⟨2, 5⟩⟩,
        ⟨.newline, "\n", ⟨2, 6⟩⟩, ⟨.rightBrace, "\x7d", ⟨3, 1⟩⟩, ⟨.newline, "\n", ⟨3, 2⟩⟩] := by
    decide +kernel
  refine ⟨⟨_, _, _, _, htokens, stopsAt_of_integer [_] rfl (by simp) rfl rfl, ?_, ?_⟩,
    by decide +kernel⟩
  · rw [htokens]
    decide
  · rw [htokens]
    decide

end Statement

end LineScript
