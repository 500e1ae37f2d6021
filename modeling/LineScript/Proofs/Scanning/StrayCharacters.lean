import LineScript.Proofs.CommentSigns
import LineScript.Proofs.LineNumbers

/-!
# Lexical errors

A line has a lexical error if maximal munch comes to a character that begins no token.
Every sign of the lexicon is a token on its own, so such a character is known without a
look at what follows it; only a quote has to be closed. The error has the position of the
character, and its text is that character alone, or for a quote the whole rest of the line
(`Token.ofLine_eq_error_iff`).
-/

namespace LineScript

namespace Scan

variable {text taken rest literal : List Char} {c : Char} {m : Munch} {n : Nat}

/-- The signs that begin a token. -/
def signs : List Char :=
  ['%', '-', '+', '*', '/', '=', '{', '}', '(', ')', '<', '>', '!', '.', '#']

/-- A character, with the rest of the line behind it, that begins no token. -/
structure Stray (c : Char) (rest : List Char) : Prop where
  blank : Text.isBlank c = false
  alphanumeric : c.isAlphanum = false
  sign : c ∉ signs
  quote : c = '"' → '"' ∉ rest

/-- What is wrong with a stray character. -/
def strayCause (c : Char) (rest : List Char) : LexicalError.Cause :=
  if c = '"' then .unterminated (String.ofList (c :: rest))
  else .unrecognized (String.ofList [c])

/-- Maximal munch from the left comes to the text behind the first `n` characters: blanks
are skipped, tokens are taken, and nothing is looked at behind a comment sign. -/
inductive Reaches : List Char → Nat → Prop where
  | here {text : List Char} : Reaches text 0
  | blank {c : Char} {text : List Char} {n : Nat} (hblank : Text.isBlank c = true)
      (later : Reaches text n) : Reaches (c :: text) (n + 1)
  | token {literal text : List Char} {n : Nat} (hlongest : Longest literal text)
      (hhash : literal ≠ ['#']) (later : Reaches (text.drop literal.length) n) :
      Reaches text (literal.length + n)

/-! ## The first character of a token -/

theorem isToken_of_isAlphanum (h : c.isAlphanum = true) : Lexicon.IsToken [c] := by
  simp only [Char.isAlphanum, Bool.or_eq_true] at h
  obtain h | h := h
  · exact ⟨⟨.identifier, .identifier, 1⟩, by decide, by simp [Pattern.complete, h]⟩
  · exact ⟨⟨.integer, .integer, 1⟩, by decide, by simp [Pattern.complete, h]⟩

theorem isToken_quoted {inner : List Char} (h : '"' ∉ inner) :
    Lexicon.IsToken ('"' :: (inner ++ ['"'])) :=
  ⟨⟨.string, .quoted, 1⟩, by decide, Pattern.complete_quoted_iff.mpr ⟨inner, rfl, h⟩⟩

/-- A character that is not stray begins a token. -/
theorem munch_of_not_stray (hblank : Text.isBlank c = false) (h : ¬ Stray c rest) :
    ∃ m, munch (c :: rest) = .ok m := by
  have hsigns : signs.all (fun c => decide (Lexicon.IsToken [c])) = true := by decide
  obtain ⟨piece, hpiece, htoken⟩ : ∃ piece, piece <+: c :: rest ∧ Lexicon.IsToken piece := by
    by_cases halphanumeric : c.isAlphanum = true
    · exact ⟨[c], ⟨rest, rfl⟩, isToken_of_isAlphanum halphanumeric⟩
    by_cases hsign : c ∈ signs
    · exact ⟨[c], ⟨rest, rfl⟩, of_decide_eq_true (List.all_eq_true.mp hsigns c hsign)⟩
    have hquote : c = '"' ∧ '"' ∈ rest := by
      by_contra hquote
      rw [not_and] at hquote
      exact h ⟨hblank, Bool.eq_false_iff.mpr halphanumeric, hsign, hquote⟩
    obtain ⟨rfl, hclosed⟩ := hquote
    obtain ⟨inner, later, rfl, hinner⟩ := List.eq_append_cons_of_mem hclosed
    exact ⟨'"' :: (inner ++ ['"']), ⟨later, by simp⟩, isToken_quoted hinner⟩
  obtain ⟨m, hm, -⟩ := munch_of_isToken hpiece htoken
  exact ⟨m, hm⟩

theorem viable_singleton (h : Lexicon.viable [c] = true) :
    c.isAlphanum = true ∨ c ∈ signs ∨ c = '"' := by
  have hfixed : ∀ d ∈ Lexicon.definitions,
      d.pattern.spelling.head?.all (fun c => decide (c ∈ signs)) = true := by decide
  have integer (h : Pattern.integer.complete [c] = true) : c.isAlphanum = true := by
    have hdigit := (Pattern.complete_integer_iff.mp h).2 c List.mem_cons_self
    rw [Char.isAlphanum, hdigit, Bool.or_true]
  obtain ⟨⟨kind, pattern, priority⟩, hd, hviable⟩ := Lexicon.exists_viable h
  cases pattern with
  | fixed spelling =>
    obtain ⟨later, rfl⟩ := List.isPrefixOf_iff_prefix.mp hviable
    have hfirst := hfixed _ hd
    exact .inr (.inl (of_decide_eq_true hfirst))
  | identifier => exact .inl (by simp_all [Pattern.viable, Pattern.complete, Char.isAlphanum])
  | integer => exact .inl (integer hviable)
  | float =>
    simp only [Pattern.viable] at hviable
    split at hviable
    · obtain ⟨whole, fraction, htext, hwhole, -⟩ := Pattern.complete_float_iff.mp hviable
      cases whole with
      | nil => cases hwhole
      | cons first whole => simp at htext
    · exact .inl (integer hviable)
  | quoted =>
    obtain ⟨body, hbody, -⟩ := Pattern.viable_quoted_iff.mp hviable
    cases hbody
    exact .inr (.inr rfl)

theorem Longest.isBlank_head (h : Longest literal (c :: text)) : Text.isBlank c = false := by
  obtain ⟨later, htext⟩ := h.front
  cases literal with
  | nil => exact absurd rfl h.token.ne_nil
  | cons first literal =>
    cases htext
    exact h.token.isBlank_head

/-- A string that is not closed grows up to the end of the line and never becomes a token. -/
theorem grow_of_openQuote (h : Lexicon.OpenQuote (taken ++ rest)) :
    grow taken none rest = .error (.unterminated (String.ofList (taken ++ rest))) := by
  induction rest generalizing taken with
  | nil => rw [grow, List.append_nil]
  | cons c rest ih =>
    have hwhole : Lexicon.OpenQuote ((taken ++ [c]) ++ rest) := by simpa using h
    have hlonger : Lexicon.OpenQuote (taken ++ [c]) := hwhole.of_append (by simp)
    have hmatch := Lexicon.bestMatch?_eq_none_iff.mpr hlonger.not_isToken
    simp only [grow, hlonger.viable, if_true, hmatch]
    rw [ih hwhole, List.append_assoc, List.singleton_append]

/-- No token begins with a stray character. -/
theorem munch_of_stray (h : Stray c rest) :
    munch (c :: rest) = .error (strayCause c rest) := by
  by_cases hquote : c = '"'
  · subst hquote
    exact grow_of_openQuote ⟨rest, rfl, h.quote rfl⟩
  · have hviable : Lexicon.viable [c] = false := by
      rw [Bool.eq_false_iff]
      intro hviable
      obtain halphanumeric | hsign | hquote' := viable_singleton hviable
      · rw [h.alphanumeric] at halphanumeric
        cases halphanumeric
      · exact h.sign hsign
      · exact hquote hquote'
    simp only [munch, grow, List.nil_append, hviable, Bool.false_eq_true, if_false, strayCause,
      hquote]

theorem Munch.Matched.kind_eq_hash_iff (h : m.Matched) : m.kind = .hash ↔ m.literal = ['#'] := by
  have hdefinition : ∀ d ∈ Lexicon.definitions, d.kind = .hash → d.pattern = .fixed ['#'] := by
    decide
  obtain ⟨d, hmatch, hkind⟩ := h
  constructor
  · intro hhash
    obtain ⟨hd, hcomplete⟩ := Lexicon.complete_of_bestMatch? hmatch
    rw [hdefinition d hd (hkind.trans hhash)] at hcomplete
    exact of_decide_eq_true hcomplete
  · intro hliteral
    have hsign : Lexicon.bestMatch? ['#'] = some ⟨.hash, .fixed ['#'], 2⟩ := by decide
    rw [hliteral, hsign] at hmatch
    cases hmatch
    exact hkind.symm

/-! ## Where a scan fails -/

/-- Maximal munch of the text at the position comes to a stray character, and the error
says so. -/
def Fails (position : Position) (text : List Char) (e : LexicalError) : Prop :=
  ∃ n c rest, Reaches text n ∧ text.drop n = c :: rest ∧ Stray c rest ∧
    e = { position := { position with column := position.column + n }
          cause := strayCause c rest }

variable {position : Position} {e : LexicalError}

theorem not_fails_nil : ¬ Fails position [] e := by
  rintro ⟨n, c, rest, -, hdrop, -⟩
  simp at hdrop

theorem fails_of_stray (h : Stray c rest) :
    Fails position (c :: rest) e ↔ e = { position, cause := strayCause c rest } := by
  constructor
  · rintro ⟨n, c', rest', hreach, hdrop, -, rfl⟩
    cases hreach with
    | here =>
      cases hdrop
      rfl
    | blank hblank =>
      rw [h.blank] at hblank
      cases hblank
    | token hlongest =>
      obtain ⟨m, hm, -⟩ := munch_of_isToken hlongest.front hlongest.token
      rw [munch_of_stray h] at hm
      cases hm
  · rintro rfl
    exact ⟨0, c, rest, .here, rfl, h, rfl⟩

theorem fails_of_blank (hblank : Text.isBlank c = true) :
    Fails position (c :: text) e ↔
      Fails { position with column := position.column + 1 } text e := by
  constructor
  · rintro ⟨n, c', rest, hreach, hdrop, hstray, rfl⟩
    cases hreach with
    | here =>
      cases hdrop
      rw [hstray.blank] at hblank
      cases hblank
    | @blank _ _ n _ hreach =>
      refine ⟨n, c', rest, hreach, hdrop, hstray, ?_⟩
      simp only [Nat.add_assoc, Nat.add_comm n]
    | token hlongest =>
      rw [hlongest.isBlank_head] at hblank
      cases hblank
  · rintro ⟨n, c', rest, hreach, hdrop, hstray, rfl⟩
    refine ⟨n + 1, c', rest, .blank hblank hreach, hdrop, hstray, ?_⟩
    simp only [Nat.add_assoc, Nat.add_comm n]

theorem fails_of_munch (hm : munch (c :: text) = .ok m) :
    Fails position (c :: text) e ↔ m.kind ≠ .hash ∧
      Fails { position with column := position.column + m.literal.length } m.rest e := by
  have hmatched := matched_of_grow (by simp) hm
  have hrest : (c :: text).drop m.literal.length = m.rest := by
    rw [← append_of_munch hm, List.drop_left]
  have hlongest := longest_of_munch hm
  constructor
  · rintro ⟨n, c', rest, hreach, hdrop, hstray, rfl⟩
    cases hreach with
    | here =>
      cases hdrop
      rw [munch_of_stray hstray] at hm
      cases hm
    | blank hblank =>
      rw [hlongest.isBlank_head] at hblank
      cases hblank
    | @token literal _ n hlongest' hhash hreach =>
      cases hlongest.unique hlongest'
      rw [← List.drop_drop, hrest] at hdrop
      rw [hrest] at hreach
      refine ⟨fun hkind => hhash (hmatched.kind_eq_hash_iff.mp hkind), ?_⟩
      refine ⟨n, c', rest, hreach, hdrop, hstray, ?_⟩
      simp only [Nat.add_assoc]
  · rintro ⟨hkind, n, c', rest, hreach, hdrop, hstray, rfl⟩
    refine ⟨m.literal.length + n, c', rest, ?_, ?_, hstray, ?_⟩
    · refine .token hlongest (fun hhash => hkind (hmatched.kind_eq_hash_iff.mpr hhash)) ?_
      rwa [hrest]
    · rwa [← List.drop_drop, hrest]
    · simp only [Nat.add_assoc]

/-- A scan fails just where maximal munch does. -/
theorem scan_eq_error_iff (position : Position) (text : List Char) :
    scan position text = .error e ↔ Fails position text e := by
  induction position, text using scan_induction with
  | nil position => simp [scan_nil, not_fails_nil]
  | blank position c text hblank ih =>
    rw [scan_blank hblank, fails_of_blank hblank]
    exact ih
  | error position c text cause hblank hm =>
    have hstray : Stray c text := by
      by_contra hstray
      obtain ⟨m, hm'⟩ := munch_of_not_stray hblank hstray
      rw [hm] at hm'
      cases hm'
    rw [scan_of_error hblank (munch_of_stray hstray), fails_of_stray hstray,
      Except.error.injEq, eq_comm]
  | munch position c text m hblank hm ih =>
    rw [scan_of_munch hblank hm, fails_of_munch hm, ← ih]
    by_cases hkind : m.kind = .hash
    · simp [hkind]
    · rw [if_neg hkind]
      cases scan { position with column := position.column + m.literal.length } m.rest <;>
        simp [hkind, Except.map]

end Scan

/-- A line has a lexical error if maximal munch comes to a stray character. There is at most
one such place, since nothing leads on from it. -/
theorem Token.ofLine_eq_error_iff {line : Nat} {text : String} {e : LexicalError} :
    Token.ofLine line text = .error e ↔
      ∃ p c rest, Scan.Reaches text.toList p ∧ text.toList.drop p = c :: rest ∧
        Scan.Stray c rest ∧
        e = { position := { line, column := p + 1 }
              cause := if c = '"' then .unterminated (String.ofList (c :: rest))
                else .unrecognized (String.ofList [c]) } := by
  rw [Token.ofLine, Scan.scan_eq_error_iff]
  simp only [Scan.Fails, Scan.strayCause, Nat.add_comm 1]

end LineScript
