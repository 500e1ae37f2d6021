import LineScript.Proofs.Reading.Moves
import LineScript.Proofs.Scanning.Munch

/-!
# Where tokens stand

The tokens of a line stand on it one behind the other, and the tokens of a text follow
each other in the order of their positions (`Cursor.inOrder_tokensFrom`). A position is
inside a text if it is that of a character or the end of one of its lines. How a line
is cut into tokens does not hang on its number, nor on what comes behind a token that
was found (`Scan.Cuts.take`).
-/

namespace LineScript

/-! ## Positions -/

namespace Position

variable {p q r : Position}

/-- The order in which a text is read. -/
def Before (p q : Position) : Prop :=
  p.line < q.line ∨ p.line = q.line ∧ p.column < q.column

theorem Before.trans (h : p.Before q) (h' : q.Before r) : p.Before r := by
  simp only [Before] at *
  omega

/-- The position is that of a character of the lines, which are numbered from `first`
on, or of the end of a line. -/
def WithinFrom (first : Nat) (lines : List String) (p : Position) : Prop :=
  first ≤ p.line ∧ ∃ text, lines[p.line - first]? = some text ∧
    1 ≤ p.column ∧ p.column ≤ text.length + 1

/-- The position is that of a character of the text, or of the end of a line. -/
def Within (lines : List String) (p : Position) : Prop :=
  p.WithinFrom 1 lines

section within

variable {first : Nat} {text : String} {lines : List String}

theorem withinFrom_head (hline : p.line = first)
    (hcolumn : 1 ≤ p.column ∧ p.column ≤ text.length + 1) :
    p.WithinFrom first (text :: lines) := by
  refine ⟨Nat.le_of_eq hline.symm, text, ?_, hcolumn⟩
  rw [hline, Nat.sub_self, List.getElem?_cons_zero]

theorem WithinFrom.cons (h : p.WithinFrom (first + 1) lines) :
    p.WithinFrom first (text :: lines) := by
  obtain ⟨hline, later, hlater, hcolumn⟩ := h
  refine ⟨Nat.le_of_succ_le hline, later, ?_, hcolumn⟩
  have hindex : p.line - first = p.line - (first + 1) + 1 := by omega
  rw [hindex, List.getElem?_cons_succ, hlater]

end within

end Position

/-! ## The tokens of a line -/

namespace Scan

variable {text : List Char} {m : Munch}

theorem Munch.kind_token_of_hash (hkind : m.kind = .hash) (position : Position) :
    (m.token position).kind = .hash := by
  rw [Munch.token, hkind]
  rfl

/-- The text at the position is cut into the tokens. -/
inductive Cuts : Position → List Char → List Token → Prop where
  | done {position : Position} : Cuts position [] []
  | blank {position : Position} {c : Char} {text : List Char} {tokens : List Token}
      (hblank : Text.isBlank c = true)
      (later : Cuts { position with column := position.column + 1 } text tokens) :
      Cuts position (c :: text) tokens
  | comment {position : Position} {c : Char} {text : List Char} {m : Munch}
      (hblank : Text.isBlank c = false) (hmunch : munch (c :: text) = .ok m)
      (hkind : m.kind = .hash) : Cuts position (c :: text) [m.token position]
  | token {position : Position} {c : Char} {text : List Char} {m : Munch} {tokens : List Token}
      (hblank : Text.isBlank c = false) (hmunch : munch (c :: text) = .ok m)
      (hkind : m.kind ≠ .hash)
      (later : Cuts { position with column := position.column + m.literal.length } m.rest tokens) :
      Cuts position (c :: text) (m.token position :: tokens)

section cuts

variable {position : Position} {tokens : List Token}

theorem cuts_of_scan (h : scan position text = .ok tokens) : Cuts position text tokens := by
  induction position, text using scan_induction generalizing tokens with
  | nil position =>
    rw [scan_nil] at h
    cases h
    exact .done
  | blank position c text hblank ih =>
    rw [scan_blank hblank] at h
    exact .blank hblank (ih h)
  | error position c text cause hblank hm =>
    rw [scan_of_error hblank hm] at h
    cases h
  | munch position c text m hblank hm ih =>
    obtain ⟨hkind, rfl⟩ | ⟨hkind, later, hlater, rfl⟩ := scan_munch_cases hblank hm h
    · exact .comment hblank hm hkind
    · exact .token hblank hm hkind (ih hlater)

theorem scan_of_cuts (h : Cuts position text tokens) : scan position text = .ok tokens := by
  induction h with
  | done => exact scan_nil _
  | blank hblank _ ih =>
    rw [scan_blank hblank]
    exact ih
  | comment hblank hmunch hkind => rw [scan_of_munch hblank hmunch, if_pos hkind]
  | token hblank hmunch hkind _ ih =>
    rw [scan_of_munch hblank hmunch, if_neg hkind, ih]
    rfl

/-- A line that cannot be cut is reported where no token begins. -/
theorem position_of_scan_error {e : LexicalError} (h : scan position text = .error e) :
    e.position.line = position.line ∧ position.column ≤ e.position.column ∧
      e.position.column ≤ position.column + text.length := by
  induction position, text using scan_induction with
  | nil position =>
    rw [scan_nil] at h
    cases h
  | blank position c text hblank ih =>
    rw [scan_blank hblank] at h
    have hposition := ih h
    simp only [List.length_cons] at hposition ⊢
    omega
  | error position c text cause hblank hm =>
    rw [scan_of_error hblank hm] at h
    cases h
    exact ⟨rfl, Nat.le_refl _, Nat.le_add_right _ _⟩
  | munch position c text m hblank hm ih =>
    rw [scan_of_munch hblank hm] at h
    split at h
    case isTrue => cases h
    case isFalse =>
      cases hlater : scan { position with column := position.column + m.literal.length } m.rest with
      | ok later =>
        rw [hlater] at h
        cases h
      | error e' =>
        rw [hlater] at h
        cases h
        have hposition := ih hlater
        have htext := congrArg List.length (append_of_munch hm)
        simp only [List.length_append] at hposition htext ⊢
        omega

end cuts

/-- The tokens stand on the line one behind the other, from one column to another. -/
def Laid (line : Nat) : Nat → Nat → List Token → Prop
  | start, stop, [] => start ≤ stop
  | start, stop, token :: later =>
    token.position.line = line ∧ start ≤ token.position.column ∧ 0 < token.literal.length ∧
      Laid line (token.position.column + token.literal.length) stop later

section laid

variable {line start stop : Nat} {position : Position} {tokens : List Token}

theorem Laid.mono {start' : Nat} (h : Laid line start stop tokens) (hstart : start' ≤ start) :
    Laid line start' stop tokens := by
  cases tokens with
  | nil => exact Nat.le_trans hstart h
  | cons token later => exact ⟨h.1, Nat.le_trans hstart h.2.1, h.2.2⟩

theorem Cuts.laid (h : Cuts position text tokens) :
    Laid position.line position.column (position.column + text.length) tokens := by
  have hlength {text : List Char} {m : Munch} (hm : munch text = .ok m) :
      m.literal.length + m.rest.length = text.length := by
    rw [← List.length_append, append_of_munch hm]
  induction h with
  | done => exact Nat.le_refl _
  | @blank position c text _ _ _ ih =>
    rw [List.length_cons, Nat.add_comm text.length, ← Nat.add_assoc]
    exact ih.mono (Nat.le_succ _)
  | comment _ hmunch _ =>
    refine ⟨rfl, Nat.le_refl _, by simpa [Munch.token] using literal_pos_of_munch hmunch, ?_⟩
    simp only [Laid, Munch.token, String.length_ofList, ← hlength hmunch]
    omega
  | @token position _ _ m _ _ hmunch _ _ ih =>
    refine ⟨rfl, Nat.le_refl _, by simpa [Munch.token] using literal_pos_of_munch hmunch, ?_⟩
    rw [← hlength hmunch, ← Nat.add_assoc]
    simpa [Munch.token] using ih

theorem Laid.bounds (h : Laid line start stop tokens) : start ≤ stop ∧ ∀ token ∈ tokens,
    token.position.line = line ∧ start ≤ token.position.column ∧ token.position.column < stop := by
  induction tokens generalizing start with
  | nil => exact ⟨h, by simp⟩
  | cons first later ih =>
    obtain ⟨hline, hstart, hliteral, hlater⟩ := h
    obtain ⟨hstop, hbounds⟩ := ih hlater
    refine ⟨by omega, ?_⟩
    intro token htoken
    obtain rfl | htoken := List.mem_cons.mp htoken
    · exact ⟨hline, hstart, by omega⟩
    · have htoken := hbounds token htoken
      exact ⟨htoken.1, by omega, htoken.2.2⟩

theorem Laid.inOrder (h : Laid line start stop tokens) :
    tokens.Pairwise fun token later => token.position.Before later.position := by
  induction tokens generalizing start with
  | nil => exact .nil
  | cons first later ih =>
    obtain ⟨hline, -, hliteral, hlater⟩ := h
    refine .cons ?_ (ih hlater)
    intro token htoken
    have htoken := hlater.bounds.2 token htoken
    exact .inr ⟨hline.trans htoken.1.symm, by omega⟩

end laid

/-! ## Cut lines -/

section take

variable {position : Position} {tokens : List Token}

/-- A piece is found as well if the text ends behind it. -/
theorem munch_take (h : munch text = .ok m) (n : Nat) :
    munch (text.take (m.literal.length + n)) = .ok { m with rest := m.rest.take n } := by
  obtain ⟨hlongest, htext, hmatched⟩ := munch_eq_ok_iff.mp h
  have htake : text.take (m.literal.length + n) = m.literal ++ m.rest.take n := by
    rw [← htext, List.take_length_add_append]
  refine munch_eq_ok_iff.mpr ⟨?_, htake.symm, hmatched⟩
  exact hlongest.of_front (htake ▸ List.prefix_append _ _) (List.take_prefix _ _)

/-- A cut behind a piece leaves the first character and the piece. -/
theorem exists_take_of_munch {c : Char} (h : munch (c :: text) = .ok m) (n : Nat) :
    ∃ cut, (c :: text).take (m.literal.length + n) = c :: cut ∧
      munch (c :: cut) = .ok { m with rest := m.rest.take n } := by
  obtain ⟨k, hk⟩ := Nat.exists_eq_add_of_lt (literal_pos_of_munch h)
  have htake : (c :: text).take (m.literal.length + n) = c :: text.take (k + n) := by
    rw [hk, Nat.zero_add, Nat.add_right_comm, List.take_succ_cons]
  exact ⟨_, htake, htake ▸ munch_take h n⟩

theorem Munch.end_token (m : Munch) (position : Position) :
    (m.token position).position.column + (m.token position).literal.length - position.column =
      m.literal.length := by
  simp only [token, String.length_ofList]
  omega

/-- A line that is cut off behind a token has the tokens up to that one. -/
theorem Cuts.take (h : Cuts position text tokens) {before later : List Token} {token : Token}
    (htokens : tokens = before ++ token :: later) :
    Cuts position (text.take (token.position.column + token.literal.length - position.column))
      (before ++ [token]) := by
  induction h generalizing before with
  | done => simp at htokens
  | @blank position c text _ hblank hlater ih =>
    have hbounds := hlater.laid.bounds.2 token (by simp [htokens])
    have hcount : token.position.column + token.literal.length - position.column =
        token.position.column + token.literal.length - (position.column + 1) + 1 := by
      simp only at hbounds
      omega
    rw [hcount, List.take_succ_cons]
    exact .blank hblank (ih htokens)
  | @comment position c text m hblank hmunch hkind =>
    obtain ⟨rfl, rfl, rfl⟩ : before = [] ∧ m.token position = token ∧ later = [] := by
      cases before <;> simp_all
    obtain ⟨cut, hcut, hmunch'⟩ := exists_take_of_munch hmunch 0
    rw [m.end_token, ← Nat.add_zero m.literal.length, hcut]
    exact @comment position c cut { m with rest := m.rest.take 0 } hblank hmunch' hkind
  | @token position c text m tokens hblank hmunch hkind hlater ih =>
    cases before with
    | nil =>
      obtain ⟨rfl, rfl⟩ : m.token position = token ∧ tokens = later := by simpa using htokens
      obtain ⟨cut, hcut, hmunch'⟩ := exists_take_of_munch hmunch 0
      rw [m.end_token, ← Nat.add_zero m.literal.length, hcut]
      exact @Cuts.token position c cut { m with rest := m.rest.take 0 } _ hblank hmunch' hkind .done
    | cons first before =>
      obtain ⟨rfl, rfl⟩ : m.token position = first ∧ tokens = before ++ token :: later := by
        simpa using htokens
      have hbounds := hlater.laid.bounds.2 token (by simp)
      let n := token.position.column + token.literal.length -
        (position.column + m.literal.length)
      have hcount : token.position.column + token.literal.length - position.column =
          m.literal.length + n := by
        simp only [n] at hbounds ⊢
        omega
      obtain ⟨cut, hcut, hmunch'⟩ := exists_take_of_munch hmunch n
      rw [hcount, hcut]
      exact @Cuts.token position c cut { m with rest := m.rest.take n } _ hblank hmunch' hkind
        (ih rfl)

/-- How a text is cut does not hang on where it stands. -/
theorem Cuts.move (h : Cuts position text tokens) (position' : Position) :
    ∃ tokens', Cuts position' text tokens' := by
  induction h generalizing position' with
  | done => exact ⟨_, .done⟩
  | blank hblank _ ih =>
    obtain ⟨tokens', h'⟩ := ih { position' with column := position'.column + 1 }
    exact ⟨tokens', .blank hblank h'⟩
  | comment hblank hmunch hkind => exact ⟨_, .comment hblank hmunch hkind⟩
  | @token _ _ _ m _ hblank hmunch hkind _ ih =>
    obtain ⟨tokens', h'⟩ := ih { position' with column := position'.column + m.literal.length }
    exact ⟨_, .token hblank hmunch hkind h'⟩

/-- A comment sign ends the line. -/
theorem Cuts.hash_last (h : Cuts position text tokens) :
    ∀ token ∈ tokens.dropLast, token.kind ≠ .hash := by
  induction h with
  | done => simp
  | blank _ _ ih => exact ih
  | comment => simp
  | @token _ _ _ m tokens _ _ hkind _ ih =>
    cases tokens with
    | nil => simp
    | cons next tokens =>
      rw [List.dropLast_cons_cons]
      refine List.forall_mem_cons.mpr ⟨?_, ih⟩
      obtain hsame | ⟨word, hword⟩ :=
        Lexicon.reclassify_cases .longest m.kind (String.ofList m.literal)
      · rw [Munch.token, hsame]
        exact hkind
      · simp [Munch.token, hword]

end take

end Scan

/-! ## The tokens of a text -/

namespace Cursor

variable {line : Nat} {text : String} {lines : List String} {token : Token}

/-- The line end behind a line. -/
def newlineOf (line : Nat) (text : String) : Token :=
  { kind := .newline, literal := "\n", position := lineEnd line text }

theorem lineTokens_of_ok {tokens : List Token} (h : Token.ofLine line text = .ok tokens) :
    lineTokens line text = tokens ++ [newlineOf line text] := by
  simp only [lineTokens, h, newlineOf]

theorem lineTokens_of_error {e : LexicalError} (h : Token.ofLine line text = .error e) :
    lineTokens line text = [newlineOf line text] := by
  simp only [lineTokens, h, newlineOf]

theorem laid_ofLine {tokens : List Token} (h : Token.ofLine line text = .ok tokens) :
    Scan.Laid line 1 (1 + text.length) tokens := by
  have hlaid := (Scan.cuts_of_scan h).laid
  rwa [String.length_toList] at hlaid

theorem position_lineTokens (h : token ∈ lineTokens line text) :
    token.position.line = line ∧ 1 ≤ token.position.column ∧
      token.position.column ≤ text.length + 1 := by
  cases hline : Token.ofLine line text with
  | error e =>
    rw [lineTokens_of_error hline, List.mem_singleton] at h
    subst h
    exact ⟨rfl, Nat.le_add_left _ _, Nat.le_refl _⟩
  | ok tokens =>
    rw [lineTokens_of_ok hline, List.mem_append, List.mem_singleton] at h
    obtain h | rfl := h
    · have hbounds := (laid_ofLine hline).bounds.2 token h
      exact ⟨hbounds.1, hbounds.2.1, by omega⟩
    · exact ⟨rfl, Nat.le_add_left _ _, Nat.le_refl _⟩

theorem inOrder_lineTokens (line : Nat) (text : String) :
    (lineTokens line text).Pairwise fun token later => token.position.Before later.position := by
  cases hline : Token.ofLine line text with
  | error e =>
    rw [lineTokens_of_error hline]
    exact List.pairwise_singleton _ _
  | ok tokens =>
    have hlaid := laid_ofLine hline
    rw [lineTokens_of_ok hline]
    refine List.pairwise_append.mpr ⟨hlaid.inOrder, List.pairwise_singleton _ _, ?_⟩
    intro token htoken last hlast
    rw [List.mem_singleton] at hlast
    subst hlast
    have hbounds := hlaid.bounds.2 token htoken
    exact .inr ⟨hbounds.1, by simp only [newlineOf, lineEnd]; omega⟩

theorem wholeLines_lineTokens (line : Nat) (text : String) :
    Token.WholeLines (lineTokens line text) where
  goesOn token htoken := (exact_lineTokens line text token htoken).goesOn
  ended last hlast := by
    have hend : (lineTokens line text).getLast? = some (newlineOf line text) := by
      cases hline : Token.ofLine line text with
      | error e => rw [lineTokens_of_error hline]; rfl
      | ok tokens => rw [lineTokens_of_ok hline, List.getLast?_concat]
    rw [hend] at hlast
    cases hlast
    rfl

/-- The tokens of lines that are numbered from `line` on. -/
def tokensFrom (line : Nat) (lines : List String) : List Token :=
  (lines.zipIdx line).flatMap fun (text, line) => lineTokens line text

@[simp] theorem tokensFrom_nil : tokensFrom line [] = [] := rfl

@[simp] theorem tokensFrom_cons :
    tokensFrom line (text :: lines) = lineTokens line text ++ tokensFrom (line + 1) lines := by
  simp [tokensFrom, List.zipIdx_cons]

theorem tokensFrom_append {later : List String} :
    tokensFrom line (lines ++ later) =
      tokensFrom line lines ++ tokensFrom (line + lines.length) later := by
  simp [tokensFrom, List.zipIdx_append]

theorem ahead_ofLines (lines : List String) : (ofLines lines).1.ahead = tokensFrom 1 lines := rfl

theorem wholeLines_tokensFrom (line : Nat) (lines : List String) :
    Token.WholeLines (tokensFrom line lines) := by
  induction lines generalizing line with
  | nil => exact .nil
  | cons text lines ih =>
    rw [tokensFrom_cons]
    exact (wholeLines_lineTokens line text).append (ih _)

theorem position_tokensFrom (h : token ∈ tokensFrom line lines) :
    token.position.WithinFrom line lines := by
  induction lines generalizing line with
  | nil => cases h
  | cons text lines ih =>
    rw [tokensFrom_cons, List.mem_append] at h
    obtain h | h := h
    · obtain ⟨hline, hcolumn⟩ := position_lineTokens h
      exact Position.withinFrom_head hline hcolumn
    · exact (ih h).cons

/-- The tokens of a text follow each other. -/
theorem inOrder_tokensFrom (line : Nat) (lines : List String) :
    (tokensFrom line lines).Pairwise fun token later =>
      token.position.Before later.position := by
  induction lines generalizing line with
  | nil => exact .nil
  | cons text lines ih =>
    rw [tokensFrom_cons]
    refine List.pairwise_append.mpr ⟨inOrder_lineTokens line text, ih _, ?_⟩
    intro token htoken later hlater
    have hline := (position_lineTokens htoken).1
    have hlater := (position_tokensFrom hlater).1
    exact .inl (by omega)

/-! ## The end of a text -/

theorem closing_ofLines_concat {last : String} :
    (ofLines (lines ++ [last])).1.closing = Token.endAt (lineEnd (lines.length + 1) last) := by
  simp [ofLines, List.zipIdx_append, Nat.add_comm]

/-- The input ends where its last line does. -/
theorem exists_closing_ofLines (h : lines ≠ []) :
    ∃ text, lines[lines.length - 1]? = some text ∧
      (ofLines lines).1.closing.position = lineEnd lines.length text := by
  obtain rfl | ⟨before, last, rfl⟩ := List.eq_nil_or_concat lines
  · exact absurd rfl h
  · refine ⟨last, by simp, ?_⟩
    rw [List.concat_eq_append, closing_ofLines_concat, List.length_append]
    rfl

theorem within_closing (h : lines ≠ []) : (ofLines lines).1.closing.position.Within lines := by
  obtain ⟨text, htext, hclosing⟩ := exists_closing_ofLines h
  rw [hclosing]
  exact ⟨List.length_pos_iff.mpr h, text, htext, Nat.le_add_left _ _, Nat.le_refl _⟩

/-- Nothing inside a text is behind its end. -/
theorem not_closing_before {p : Position} (h : p.Within lines) :
    ¬ (ofLines lines).1.closing.position.Before p := by
  obtain ⟨hline, text, htext, -, hcolumn⟩ := h
  have hlength : p.line - 1 < lines.length := (List.getElem?_eq_some_iff.mp htext).1
  obtain ⟨last, hlast, hclosing⟩ :=
    exists_closing_ofLines (List.length_pos_iff.mp (Nat.zero_lt_of_lt hlength))
  rw [hclosing]
  rintro (hbefore | ⟨hsame, hbefore⟩)
  · simp only [lineEnd] at hbefore
    omega
  · simp only [lineEnd] at hsame hbefore
    rw [hsame, htext] at hlast
    cases hlast
    omega

/-! ## Lexical errors -/

/-- The lexical errors of lines that are numbered from `line` on. -/
def errorsFrom (line : Nat) (lines : List String) : List LexicalError :=
  (lines.zipIdx line).filterMap fun (text, line) => lineError? line text

theorem errors_ofLines (lines : List String) : (ofLines lines).2 = errorsFrom 1 lines := rfl

theorem errorsFrom_cons :
    errorsFrom line (text :: lines) =
      (lineError? line text).toList ++ errorsFrom (line + 1) lines := by
  cases h : lineError? line text <;> simp [errorsFrom, List.zipIdx_cons, h]

theorem lineError?_eq_none_iff :
    lineError? line text = none ↔ ∃ tokens, Token.ofLine line text = .ok tokens := by
  unfold lineError?
  split
  case h_1 tokens h => simp [h]
  case h_2 e h => simp [h]

/-- Whether a line can be scanned does not hang on its number. -/
theorem lineError?_eq_none_of_eq_none (h : lineError? line text = none) (line' : Nat) :
    lineError? line' text = none := by
  obtain ⟨tokens, htokens⟩ := lineError?_eq_none_iff.mp h
  obtain ⟨tokens', hcuts⟩ := (Scan.cuts_of_scan htokens).move { line := line', column := 1 }
  exact lineError?_eq_none_iff.mpr ⟨tokens', Scan.scan_of_cuts hcuts⟩

theorem errorsFrom_eq_nil_iff :
    errorsFrom line lines = [] ↔ ∀ text ∈ lines, ∀ line, lineError? line text = none := by
  induction lines generalizing line with
  | nil => simp [errorsFrom]
  | cons text lines ih =>
    rw [errorsFrom_cons, List.append_eq_nil_iff, ih, List.forall_mem_cons]
    have htext : (lineError? line text).toList = [] ↔ ∀ line, lineError? line text = none := by
      rw [Option.toList_eq_nil_iff]
      exact ⟨lineError?_eq_none_of_eq_none, fun h => h line⟩
    rw [htext]

theorem position_lineError? {e : LexicalError} (h : lineError? line text = some e) :
    e.position.line = line ∧ 1 ≤ e.position.column ∧ e.position.column ≤ text.length + 1 := by
  unfold lineError? at h
  split at h
  · cases h
  case h_2 e' he' =>
    cases h
    obtain ⟨hline, hstart, hstop⟩ := Scan.position_of_scan_error he'
    rw [String.length_toList, Nat.add_comm] at hstop
    exact ⟨hline, hstart, hstop⟩

theorem position_errorsFrom {e : LexicalError} (h : e ∈ errorsFrom line lines) :
    e.position.WithinFrom line lines := by
  induction lines generalizing line with
  | nil => cases h
  | cons text lines ih =>
    rw [errorsFrom_cons, List.mem_append, Option.mem_toList] at h
    obtain h | h := h
    · obtain ⟨hline, hcolumn⟩ := position_lineError? h
      exact Position.withinFrom_head hline hcolumn
    · exact (ih h).cons

theorem inOrder_errorsFrom (line : Nat) (lines : List String) :
    (errorsFrom line lines).Pairwise fun e later => e.position.Before later.position := by
  induction lines generalizing line with
  | nil => exact .nil
  | cons text lines ih =>
    rw [errorsFrom_cons]
    refine List.pairwise_append.mpr ⟨?_, ih _, ?_⟩
    · cases lineError? line text <;> simp
    · intro e he later hlater
      have hline := (position_lineError? (Option.mem_toList.mp he)).1
      have hlater := (position_errorsFrom hlater).1
      exact .inl (by omega)

end Cursor

/-! ## The program of a text -/

section parse

variable {lines : List String}

theorem Program.errors_ofLines_of_parse (h : (parse lines).errors = []) :
    (Cursor.ofLines lines).2 = [] := by
  unfold parse at h
  simp only at h
  split at h
  case isTrue hscanned => exact List.isEmpty_iff.mp hscanned
  case isFalse => exact List.map_eq_nil_iff.mp h

/-- If all lines can be scanned, the program is that of a walk over their tokens. -/
theorem Program.parse_of_scanned (h : (Cursor.ofLines lines).2 = []) :
    let w := Walk.start.run (Cursor.ofLines lines).1.closing.position (Cursor.tokensFrom 1 lines)
    (parse lines).program = { root := w.block.fill Sketch.nulls, arena := w.arena } ∧
      (parse lines).errors = w.errors.map .grammar := by
  have hwalk := Walk.run_start (Cursor.ofLines lines).1
  rw [Cursor.ahead_ofLines] at hwalk
  unfold parse
  simp only
  rw [if_pos (List.isEmpty_iff.mpr h)]
  exact ⟨hwalk.1, congrArg _ hwalk.2⟩

end parse

/-- What a walk finds in the lines from some line on is reported there or behind. -/
theorem Walk.errors_run_tokensFrom (w : Walk) {line : Nat} (lines : List String) {stop : Position}
    (hstop : line ≤ stop.line) :
    ∃ found, (w.run stop (Cursor.tokensFrom line lines)).errors = w.errors ++ found ∧
      ∀ e ∈ found, line ≤ e.position.line := by
  obtain ⟨v, hpasses, hsince⟩ :=
    w.exists_passes_of_wholeLines (Cursor.wholeLines_tokensFrom line lines)
  obtain ⟨found, hfound, hat⟩ := hsince.errors
  have hrun := hpasses stop []
  rw [List.append_nil] at hrun
  refine ⟨found ++ List.replicate v.outer.length (Recovery.unclosed stop), ?_, ?_⟩
  · rw [hrun, errors_run_nil, hfound, List.append_assoc]
  · intro e he
    obtain he | he := List.mem_append.mp he
    · obtain ⟨token, htoken, hposition⟩ := hat e he
      rw [hposition]
      exact (Cursor.position_tokensFrom htoken).1
    · cases List.eq_of_mem_replicate he
      exact hstop

end LineScript
