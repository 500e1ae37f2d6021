import LineScript.Proofs.Layout

/-!
# Comment signs

A comment sign is a token of its own, and nothing but a string goes on behind a blank.
So a line that is blank up to a comment sign has no token but that sign
(`Cursor.lineTokens_of_isSilent`), and a line that gets a comment behind a blank keeps its
tokens (`Cursor.ofLine_commented`).
-/

namespace LineScript

/-! ## The characters of tokens -/

/-- No character between the space and the next line control is blank. -/
theorem Text.isBlank_of_printable {c : Char} (hstart : 32 < c.toNat) (hstop : c.toNat < 133) :
    isBlank c = false := by
  have hranges : ∀ range ∈ blankRanges, range.2 ≤ 32 ∨ 133 ≤ range.1 := by decide
  rw [Bool.eq_false_iff]
  intro hblank
  obtain ⟨range, hrange, hc⟩ := List.any_eq_true.mp hblank
  simp only [Bool.and_eq_true, decide_eq_true_eq] at hc
  have := hranges range hrange
  omega

namespace Pattern

/-- The characters of names and numbers. -/
def inWord (c : Char) : Bool :=
  c.isAlphanum || c = '_' || c = '.'

variable {pattern : Pattern} {text : List Char} {c : Char}

theorem inWord_of_isDigit (h : c.isDigit = true) : inWord c = true := by
  simp [inWord, Char.isAlphanum, h]

theorem inWord_of_integer (h : complete .integer text = true) (hc : c ∈ text) :
    inWord c = true := by
  simp only [complete, Bool.and_eq_true, List.all_eq_true] at h
  exact inWord_of_isDigit (h.2 c hc)

theorem inWord_of_identifier (h : complete .identifier text = true) (hc : c ∈ text) :
    inWord c = true := by
  cases text with
  | nil => cases hc
  | cons first rest =>
    simp only [complete, Bool.and_eq_true, List.all_eq_true] at h
    obtain ⟨hfirst, hrest⟩ := h
    obtain rfl | hc := List.mem_cons.mp hc
    · simp [inWord, Char.isAlphanum, hfirst]
    · have := hrest c hc
      simp only [inWord, Bool.or_eq_true] at this ⊢
      exact .inl this

theorem inWord_of_float (h : complete .float text = true) (hc : c ∈ text) :
    inWord c = true := by
  obtain ⟨whole, fraction, rfl, hwhole, hfraction⟩ := complete_float_iff.mp h
  rw [List.mem_append, List.mem_cons] at hc
  obtain hc | rfl | hc := hc
  · exact inWord_of_integer hwhole hc
  · decide
  · exact inWord_of_isDigit (hfraction c hc)

theorem isBlank_of_inWord (h : inWord c = true) : Text.isBlank c = false := by
  have hcode : 46 ≤ c.toNat ∧ c.toNat ≤ 122 := by
    simp only [inWord, Char.isAlphanum, Bool.or_eq_true, decide_eq_true_eq] at h
    obtain ((halpha | hdigit) | rfl) | rfl := h
    · have := Text.toNat_of_isAlpha halpha
      omega
    · have := Text.toNat_of_isDigit hdigit
      omega
    · decide
    · decide
  exact Text.isBlank_of_printable (by omega) (by omega)

/-- A text that can grow into a token is the beginning of a fixed spelling, a word, or an
opening quote with no other quote but at its end. -/
theorem viable_cases (h : pattern.viable text = true) :
    text <+: pattern.spelling ∨ (∀ c ∈ text, inWord c = true) ∨
      ∃ body, text = '"' :: body ∧ '"' ∉ body.dropLast := by
  cases pattern with
  | fixed spelling => exact .inl (List.isPrefixOf_iff_prefix.mp h)
  | identifier => exact .inr (.inl fun c => inWord_of_identifier h)
  | integer => exact .inr (.inl fun c => inWord_of_integer h)
  | float =>
    simp only [viable] at h
    split at h
    · exact .inr (.inl fun c => inWord_of_float h)
    · exact .inr (.inl fun c => inWord_of_integer h)
  | quoted => exact .inr (.inr (viable_quoted_iff.mp h))

end Pattern

namespace Lexicon

variable {taken text : List Char} {c : Char}

theorem exists_viable (h : viable text = true) :
    ∃ d ∈ definitions, d.pattern.viable text = true :=
  List.any_eq_true.mp h

/-- Nothing is longer than a comment sign. -/
theorem not_viable_hash (c : Char) : viable ['#', c] = false := by
  have hfixed : ∀ d ∈ definitions, '#' ∈ d.pattern.spelling → d.pattern.spelling.length ≤ 1 := by
    decide
  rw [Bool.eq_false_iff]
  intro h
  obtain ⟨d, hd, hviable⟩ := exists_viable h
  obtain hfront | hword | ⟨body, hbody, -⟩ := Pattern.viable_cases hviable
  · have hlength := hfixed d hd (hfront.subset (by simp))
    have := hfront.length_le
    simp only [List.length_cons] at this
    omega
  · have hhash : Pattern.inWord '#' = false := by decide
    rw [hword '#' (by simp)] at hhash
    cases hhash
  · cases hbody

/-- An opening quote and no other quote. -/
def OpenQuote (text : List Char) : Prop :=
  ∃ body, text = '"' :: body ∧ '"' ∉ body

/-- A blank only goes on with a string. -/
theorem openQuote_of_viable (hblank : Text.isBlank c = true) (h : viable (taken ++ [c]) = true) :
    OpenQuote taken := by
  have hfixed : ∀ d ∈ definitions, d.pattern.spelling.all (fun c => !Text.isBlank c) = true := by
    decide
  obtain ⟨d, hd, hviable⟩ := exists_viable h
  obtain hfront | hword | ⟨body, hbody, hquote⟩ := Pattern.viable_cases hviable
  · have hspelling := List.all_eq_true.mp (hfixed d hd) c (hfront.subset (by simp))
    rw [hblank] at hspelling
    cases hspelling
  · rw [Pattern.isBlank_of_inWord (hword c (by simp))] at hblank
    cases hblank
  · cases taken with
    | nil =>
      cases hbody
      exact absurd hblank (by decide)
    | cons first taken =>
      rw [List.cons_append, List.cons.injEq] at hbody
      obtain ⟨rfl, rfl⟩ := hbody
      rw [List.dropLast_concat] at hquote
      exact ⟨taken, rfl, hquote⟩

/-- No token begins with a blank. -/
theorem IsToken.isBlank_head (h : IsToken (c :: text)) : Text.isBlank c = false := by
  rw [Bool.eq_false_iff]
  intro hblank
  have hviable : viable ([] ++ [c]) = true := viable_of_append (viable_of_isToken h) (by simp)
  obtain ⟨body, hbody, -⟩ := openQuote_of_viable hblank hviable
  cases hbody

/-- A string without its closing quote is no token. -/
theorem OpenQuote.not_isToken (h : OpenQuote text) : ¬ IsToken text := by
  rintro ⟨d, hd, hcomplete⟩
  obtain ⟨body, rfl, hquote⟩ := h
  have hpattern : d.pattern = .quoted := pattern_eq_ofText hd hcomplete
  rw [hpattern] at hcomplete
  obtain ⟨inner, hinner, -⟩ := Pattern.complete_quoted_iff.mp hcomplete
  cases hinner
  exact hquote (by simp)

theorem OpenQuote.viable (h : OpenQuote text) : viable text = true := by
  obtain ⟨body, rfl, hquote⟩ := h
  refine List.any_eq_true.mpr ⟨⟨.string, .quoted, 1⟩, by decide, ?_⟩
  exact Pattern.viable_quoted_iff.mpr ⟨body, rfl, fun hmem => hquote (List.dropLast_subset _ hmem)⟩

theorem OpenQuote.of_append (h : OpenQuote (taken ++ text)) (htaken : taken ≠ []) :
    OpenQuote taken := by
  obtain ⟨body, hbody, hquote⟩ := h
  cases taken with
  | nil => exact absurd rfl htaken
  | cons first taken =>
    rw [List.cons_append, List.cons.injEq] at hbody
    obtain ⟨rfl, rfl⟩ := hbody
    exact ⟨taken, rfl, fun hmem => hquote (List.mem_append_left _ hmem)⟩

end Lexicon

namespace Scan

variable {text literal : List Char} {c : Char} {m : Munch} {position : Position}
variable {tokens : List Token}

theorem munch_hash (text : List Char) :
    munch ('#' :: text) = .ok { kind := .hash, literal := ['#'], rest := text } := by
  have hviable : Lexicon.viable ['#'] = true := by decide
  have hmatch : Lexicon.bestMatch? ['#'] = some ⟨.hash, .fixed ['#'], 2⟩ := by decide
  simp only [munch, grow, List.nil_append, hviable, if_true, hmatch]
  cases text with
  | nil => rfl
  | cons c text => simp [grow, Lexicon.not_viable_hash c]

/-- A blank behind a text makes no longer token of its front. -/
theorem Longest.before_blank (h : Longest literal text) (hblank : Text.isBlank c = true)
    (more : List Char) : Longest literal (text ++ c :: more) where
  front := h.front.trans (List.prefix_append _ _)
  token := h.token
  most piece hpiece htoken := by
    by_cases hshort : piece.length ≤ text.length
    · have hfront := List.prefix_of_prefix_length_le hpiece (List.prefix_append _ _) hshort
      exact h.most hfront htoken
    · -- The piece holds the blank, so it is a string that is open where the literal ends.
      have hfront : text ++ [c] <+: text ++ c :: more := ⟨more, by simp⟩
      have hcut : text ++ [c] <+: piece := by
        refine List.prefix_of_prefix_length_le hfront hpiece ?_
        simp only [List.length_append, List.length_singleton]
        omega
      obtain ⟨back, rfl⟩ := hcut
      have hviable := Lexicon.viable_of_append (Lexicon.viable_of_isToken htoken) (by simp)
      have hquote := Lexicon.openQuote_of_viable hblank hviable
      obtain ⟨rest, rfl⟩ := h.front
      exact absurd h.token (hquote.of_append h.token.ne_nil).not_isToken

/-- The same piece of a longer text. -/
def Munch.extend (more : List Char) (m : Munch) : Munch :=
  { m with rest := m.rest ++ more }

/-- What was found in a text is found as well if a blank comes behind the text. -/
theorem munch_before_blank (h : munch text = .ok m) (hblank : Text.isBlank c = true)
    (more : List Char) : munch (text ++ c :: more) = .ok (m.extend (c :: more)) := by
  obtain ⟨hlongest, htext, hmatched⟩ := munch_eq_ok_iff.mp h
  refine munch_eq_ok_iff.mpr ⟨hlongest.before_blank hblank more, ?_, hmatched⟩
  rw [← htext, List.append_assoc]
  rfl

/-- A line with a comment behind a blank has the same tokens, and the comment sign unless
it had one. -/
theorem Cuts.comment_behind (h : Cuts position text tokens) (more : List Char) :
    ∃ comment : List Token, (∀ token ∈ comment, token.kind = .hash) ∧
      Cuts position (text ++ ' ' :: '#' :: more) (tokens ++ comment) := by
  have hmunch {text : List Char} {m : Munch} (hm : munch text = .ok m) :
      munch (text ++ ' ' :: '#' :: more) = .ok (m.extend (' ' :: '#' :: more)) :=
    munch_before_blank hm (by decide) _
  induction h with
  | @done position =>
    refine ⟨[_], ?_, .blank (by decide) (.comment (by decide) (munch_hash more) rfl)⟩
    intro token htoken
    rw [List.mem_singleton.mp htoken]
    rfl
  | blank hblank _ ih =>
    obtain ⟨comment, hcomment, hcuts⟩ := ih
    exact ⟨comment, hcomment, .blank hblank hcuts⟩
  | @comment position c text m hblank hm hkind =>
    refine ⟨[], by simp, ?_⟩
    exact @Cuts.comment position c _ (m.extend _) hblank (hmunch hm) hkind
  | @token position c text m tokens hblank hm hkind _ ih =>
    obtain ⟨comment, hcomment, hcuts⟩ := ih
    exact ⟨comment, hcomment, @Cuts.token position c _ (m.extend _) _ hblank (hmunch hm) hkind hcuts⟩

end Scan

/-! ## Silent lines -/

/-- The text is blank, or blank up to a comment sign. -/
def Text.isSilent (text : List Char) : Bool :=
  match text.dropWhile isBlank with
  | [] => true
  | c :: _ => c = '#'

theorem Scan.Cuts.of_isSilent {text : List Char} (h : Text.isSilent text = true)
    (position : Position) :
    ∃ comment : List Token, (∀ token ∈ comment, token.kind = .hash) ∧
      Cuts position text comment := by
  induction text generalizing position with
  | nil => exact ⟨[], by simp, .done⟩
  | cons c text ih =>
    cases hblank : Text.isBlank c with
    | true =>
      rw [Text.isSilent, List.dropWhile_cons_of_pos hblank] at h
      obtain ⟨comment, hcomment, hcuts⟩ := ih h { position with column := position.column + 1 }
      exact ⟨comment, hcomment, .blank hblank hcuts⟩
    | false =>
      rw [Text.isSilent, List.dropWhile_cons_of_neg (by simp [hblank])] at h
      have hhash : c = '#' := of_decide_eq_true h
      subst hhash
      refine ⟨[_], ?_, .comment hblank (munch_hash text) rfl⟩
      intro token htoken
      rw [List.mem_singleton.mp htoken]
      rfl

namespace Cursor

variable {line : Nat} {text : String} {lines later : List String} {tokens : List Token}

theorem errorsFrom_append :
    errorsFrom line (lines ++ later) =
      errorsFrom line lines ++ errorsFrom (line + lines.length) later := by
  simp [errorsFrom, List.zipIdx_append]

/-- A silent line has no token but a comment sign. -/
theorem lineTokens_of_isSilent (h : Text.isSilent text.toList = true) (line : Nat) :
    lineError? line text = none ∧
      ∀ token ∈ lineTokens line text, token.kind = .newline ∨ token.kind = .hash := by
  obtain ⟨comment, hcomment, hcuts⟩ := Scan.Cuts.of_isSilent h { line, column := 1 }
  have hscan : Token.ofLine line text = .ok comment := Scan.scan_of_cuts hcuts
  refine ⟨lineError?_eq_none_iff.mpr ⟨comment, hscan⟩, ?_⟩
  rw [lineTokens_of_ok hscan]
  intro token htoken
  obtain htoken | htoken := List.mem_append.mp htoken
  · exact .inr (hcomment token htoken)
  · exact .inl (by rw [List.mem_singleton.mp htoken]; rfl)

/-- A line keeps its tokens when a comment is put behind it. -/
theorem ofLine_commented (h : Token.ofLine line text = .ok tokens) (comment : String) :
    ∃ signs : List Token, (∀ token ∈ signs, token.kind = .hash) ∧
      Token.ofLine line (text ++ " #" ++ comment) = .ok (tokens ++ signs) := by
  obtain ⟨signs, hsigns, hcuts⟩ := (Scan.cuts_of_scan h).comment_behind comment.toList
  refine ⟨signs, hsigns, Scan.scan_of_cuts ?_⟩
  simpa using hcuts

end Cursor

end LineScript
