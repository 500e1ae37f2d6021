import LineScript.Cursor
import LineScript.Proofs.Reading.Expressions
import LineScript.Proofs.Scanning.Keywords

/-!
# The spelling of scanned tokens

Every token of a line is a complete text of one definition of the lexicon
(`Scan.scanned_of_scan`). A grammar over token kinds relies on two consequences: a
token that is called a number is spelled as one, and no end of input stands among
the tokens of the lines (`Cursor.regular_ofLines`). A tree forgets the text of most
tokens; that nothing is lost rests on the fact that their kind has only one text
(`Cursor.exact_ofLines`).
-/

namespace LineScript

namespace Lexicon

variable {text : List Char} {d : Definition}

theorem mem_of_foldl_prefer {ds : List Definition} {best : Option Definition}
    (h : ds.foldl prefer best = some d) : best = some d ∨ d ∈ ds := by
  induction ds generalizing best with
  | nil => exact .inl h
  | cons first ds ih =>
    obtain hbest | hmem := ih h
    · have hchoice : best = some d ∨ first = d := by
        cases best with
        | none => exact .inr (Option.some.inj hbest)
        | some b =>
          simp only [prefer] at hbest
          split at hbest
          · exact .inl hbest
          · exact .inr (Option.some.inj hbest)
      obtain hbest | rfl := hchoice
      · exact .inl hbest
      · exact .inr List.mem_cons_self
    · exact .inr (List.mem_cons_of_mem first hmem)

theorem complete_of_bestMatch? (h : bestMatch? text = some d) :
    d ∈ definitions ∧ d.pattern.complete text = true := by
  obtain hnone | hmem := mem_of_foldl_prefer h
  · cases hnone
  · exact List.mem_filter.mp hmem

/-- Only identifiers change their kind, and only into keywords. -/
theorem reclassify_cases (words : Keyword.Recogniser) (kind : TokenKind) (literal : String) :
    reclassify words kind literal = kind ∨
      ∃ word, reclassify words kind literal = .keyword word := by
  unfold reclassify
  split
  · exact .inr ⟨_, rfl⟩
  · exact .inl rfl

/-- A token becomes a keyword if it is an identifier that is spelled so. -/
theorem reclassify_eq_keyword_iff (hd : d ∈ definitions)
    {literal : String} {word : Keyword} :
    reclassify .longest d.kind literal = .keyword word ↔
      d.kind = .identifier ∧ literal = word.spelling := by
  have hopen : ∀ d ∈ definitions, d.kind ≠ .keyword word := by
    cases word <;> decide
  rw [← Keyword.longestMatch_longest.lookup_eq_some_iff]
  unfold reclassify
  split
  case h_1 hkind hword => simp [hkind, hword]
  case h_2 hother =>
    constructor
    · intro hkind
      exact absurd hkind (hopen d hd)
    · rintro ⟨hkind, hword⟩
      exact absurd hword (hother word hkind)

end Lexicon

/-- The token is spelled as one definition of the lexicon says. -/
def Token.Scanned (token : Token) : Prop :=
  ∃ d ∈ Lexicon.definitions, d.pattern.complete token.literal.toList = true ∧
    token.kind = Lexicon.reclassify .longest d.kind token.literal

/-- A token as the lines give it to the grammar: not the end of input, and a number
only if spelled as one. -/
structure Token.Regular (token : Token) : Prop where
  spelled : token.WellSpelled
  goesOn : token.kind ≠ .endOfInput

/-- The only text that tokens of this kind have, unless the kind is an open class. -/
def TokenKind.spelling? : TokenKind → Option String
  | .keyword word => some word.spelling
  | .percent => some "%"
  | .dash => some "-"
  | .plus => some "+"
  | .plusEquals => some "+="
  | .doublePlus => some "++"
  | .star => some "*"
  | .slash => some "/"
  | .equals => some "="
  | .leftBrace => some "\x7b"
  | .rightBrace => some "\x7d"
  | .leftParen => some "("
  | .rightParen => some ")"
  | .lessEquals => some "<="
  | .less => some "<"
  | .greaterEquals => some ">="
  | .greater => some ">"
  | .doubleEquals => some "=="
  | .bang => some "!"
  | .bangEquals => some "!="
  | .period => some "."
  | .hash => some "#"
  | .newline => some "\n"
  | .identifier | .integer | .float | .string | .endOfInput => none

/-- A token whose text follows from its kind as far as the kind allows, and stands in
quotes if it is a string. -/
structure Token.Exact (token : Token) : Prop extends token.Regular where
  fixed : ∀ ⦃text⦄, token.kind.spelling? = some text → token.literal = text
  quoted : token.kind = .string → Pattern.quoted.complete token.literal.toList = true

namespace Token.Scanned

variable {token : Token}

/-- The definition of a token that is no keyword has the token's kind. -/
theorem exists_definition (h : token.Scanned) (hword : ∀ word, token.kind ≠ .keyword word) :
    ∃ d ∈ Lexicon.definitions, d.pattern.complete token.literal.toList = true ∧
      d.kind = token.kind := by
  obtain ⟨d, hd, hcomplete, hkind⟩ := h
  obtain hsame | ⟨word, hkeyword⟩ := Lexicon.reclassify_cases .longest d.kind token.literal
  · exact ⟨d, hd, hcomplete, hsame.symm.trans hkind.symm⟩
  · exact absurd (hkind.trans hkeyword) (hword word)

theorem regular (h : token.Scanned) : token.Regular := by
  have hinteger : ∀ d ∈ Lexicon.definitions, d.kind = .integer → d.pattern = .integer := by decide
  have hfloat : ∀ d ∈ Lexicon.definitions, d.kind = .float → d.pattern = .float := by decide
  have hinput : ∀ d ∈ Lexicon.definitions, d.kind ≠ .endOfInput := by decide
  refine ⟨⟨?_, ?_⟩, ?_⟩
  · intro hkind
    obtain ⟨d, hd, hcomplete, hsame⟩ := h.exists_definition (by simp [hkind])
    exact hinteger d hd (hsame.trans hkind) ▸ hcomplete
  · intro hkind
    obtain ⟨d, hd, hcomplete, hsame⟩ := h.exists_definition (by simp [hkind])
    exact hfloat d hd (hsame.trans hkind) ▸ hcomplete
  · intro hkind
    obtain ⟨d, hd, -, hsame⟩ := h.exists_definition (by simp [hkind])
    exact hinput d hd (hsame.trans hkind)

/-- A token that is a keyword has the keyword's spelling. -/
theorem literal_of_keyword {word : Keyword} (h : token.Scanned)
    (hkind : token.kind = .keyword word) : token.literal = word.spelling := by
  obtain ⟨d, hd, -, hreclassified⟩ := h
  exact ((Lexicon.reclassify_eq_keyword_iff hd).mp (hreclassified.symm.trans hkind)).2

theorem exact (h : token.Scanned) : token.Exact := by
  have hfixed : ∀ d ∈ Lexicon.definitions,
      d.kind.spelling?.all fun text => d.pattern = .fixed text.toList := by decide
  have hstring : ∀ d ∈ Lexicon.definitions, d.kind = .string → d.pattern = .quoted := by decide
  refine ⟨h.regular, ?_, ?_⟩
  · intro text htext
    by_cases hword : ∃ word, token.kind = .keyword word
    · obtain ⟨word, hkind⟩ := hword
      rw [hkind] at htext
      cases htext
      exact h.literal_of_keyword hkind
    · rw [not_exists] at hword
      obtain ⟨d, hd, hcomplete, hsame⟩ := h.exists_definition hword
      have hpattern := hfixed d hd
      rw [hsame, htext, Option.all_some] at hpattern
      rw [of_decide_eq_true hpattern] at hcomplete
      exact String.toList_injective (of_decide_eq_true hcomplete)
  · intro hkind
    obtain ⟨d, hd, hcomplete, hsame⟩ := h.exists_definition (by simp [hkind])
    exact hstring d hd (hsame.trans hkind) ▸ hcomplete

end Token.Scanned

namespace Scan

/-- The kind was found by matching the whole literal. -/
def Munch.Matched (m : Munch) : Prop :=
  ∃ d, Lexicon.bestMatch? m.literal = some d ∧ d.kind = m.kind

theorem matched_of_grow {taken rest : List Char} {best : Option Munch} {m : Munch}
    (hbest : ∀ b ∈ best, b.Matched) (h : grow taken best rest = .ok m) : m.Matched := by
  fun_induction grow taken best rest with
  | case1 =>
    cases h
    exact hbest m rfl
  | case2 => cases h
  | case3 _ _ _ _ _ _ d hd ih =>
    refine ih ?_ h
    rintro b ⟨⟩
    exact ⟨d, hd, rfl⟩
  | case4 _ _ _ _ _ _ _ ih => exact ih hbest h
  | case5 =>
    cases h
    exact hbest m rfl
  | case6 => cases h

theorem Munch.scanned_token {text : List Char} {m : Munch} (h : munch text = .ok m)
    (position : Position) : (m.token position).Scanned := by
  obtain ⟨d, hd, hkind⟩ := matched_of_grow (by simp) h
  obtain ⟨hmem, hcomplete⟩ := Lexicon.complete_of_bestMatch? hd
  exact ⟨d, hmem, by simpa [Munch.token] using hcomplete, by rw [hkind]; rfl⟩

/-- Every token of a line is spelled as the lexicon says. -/
theorem scanned_of_scan {position : Position} {text : List Char} {tokens : List Token}
    (h : scan position text = .ok tokens) : ∀ token ∈ tokens, token.Scanned := by
  induction position, text using scan_induction generalizing tokens with
  | nil position =>
    rw [scan_nil] at h
    cases h
    simp
  | blank position c text hblank ih =>
    rw [scan_blank hblank] at h
    exact ih h
  | error position c text cause hblank hm =>
    rw [scan_of_error hblank hm] at h
    cases h
  | munch position c text m hblank hm ih =>
    obtain ⟨-, rfl⟩ | ⟨-, later, hlater, rfl⟩ := scan_munch_cases hblank hm h
    · simpa using Munch.scanned_token hm position
    · exact List.forall_mem_cons.mpr ⟨Munch.scanned_token hm position, ih hlater⟩

end Scan

namespace Cursor

/-- The tokens of a line are scanned, apart from the line end. -/
theorem exact_lineTokens (line : Nat) (text : String) :
    ∀ token ∈ lineTokens line text, token.Exact := by
  have hnewline : Token.Exact
      { kind := .newline, literal := "\n", position := lineEnd line text } := by
    refine ⟨⟨?_, ?_⟩, ?_, ?_⟩ <;> simp [Token.WellSpelled, TokenKind.spelling?]
  unfold lineTokens
  simp only
  split
  case h_1 tokens htokens =>
    intro token htoken
    obtain htoken | htoken := List.mem_append.mp htoken
    · exact (Scan.scanned_of_scan htokens token htoken).exact
    · exact List.mem_singleton.mp htoken ▸ hnewline
  case h_2 =>
    intro token htoken
    exact List.mem_singleton.mp htoken ▸ hnewline

theorem exact_ofLines (lines : List String) :
    ∀ token ∈ (ofLines lines).1.ahead, token.Exact := by
  intro token htoken
  have hmem : token ∈ (ofLines lines).1.tokens := List.mem_of_mem_drop htoken
  obtain ⟨⟨text, line⟩, -, hline⟩ := List.mem_flatMap.mp hmem
  exact exact_lineTokens line text token hline

theorem regular_ofLines (lines : List String) :
    ∀ token ∈ (ofLines lines).1.ahead, token.Regular :=
  fun token htoken => (exact_ofLines lines token htoken).toRegular

end Cursor

end LineScript
