import LineScript.Proofs.Layout

/-!
# Lines are cut by maximal munch

The tokens of a line are the longest ones at their places, each known to one definition.
They lie apart, and nothing stands between them but blanks. Which identifiers are reserved words
is found out by a recogniser, and all of this holds for every recogniser that takes the longest
word at its place (`Token.ofLineBy_munched`).
-/

namespace LineScript

/-- The columns that a token takes. -/
def Token.Covers (token : Token) (column : Nat) : Prop :=
  token.position.column ≤ column ∧ column < token.position.column + token.literal.length

/-- One definition knows the text of the token. It gives the kind, unless it calls a reserved
word an identifier. -/
def Token.Defined (token : Token) : Prop :=
  ∃ d, Lexicon.definitions.filter (fun e => e.pattern.complete token.literal.toList) = [d] ∧
    (∀ word, token.kind = .keyword word ↔
      d.kind = .identifier ∧ token.literal = word.spelling) ∧
    ((∀ word, token.kind ≠ .keyword word) → token.kind = d.kind)

namespace Scan

variable {position : Position} {text : List Char} {tokens : List Token}

/-- The tokens are what maximal munch finds on a line. -/
structure Munched (line : Nat) (text : List Char) (tokens : List Token) : Prop where
  placed : ∀ token ∈ tokens, token.position.line = line ∧ 1 ≤ token.position.column
  apart : tokens.Pairwise fun token later =>
    token.position.column < later.position.column ∧
      token.position.column + token.literal.length ≤ later.position.column
  longest : ∀ token ∈ tokens,
    Longest token.literal.toList (text.drop (token.position.column - 1))
  defined : ∀ token ∈ tokens, token.Defined
  hash_last : ∀ token ∈ tokens.dropLast, token.kind ≠ .hash
  /-- No token covers a character only if it is blank or in a comment. -/
  blank : ∀ i c, text[i]? = some c → (∀ token ∈ tokens, ¬ token.Covers (i + 1)) →
    Text.isBlank c = true ∨
      ∃ token ∈ tokens, token.kind = .hash ∧ token.position.column < i + 1

theorem Laid.apart {line start stop : Nat} (h : Laid line start stop tokens) :
    tokens.Pairwise fun token later =>
      token.position.column < later.position.column ∧
        token.position.column + token.literal.length ≤ later.position.column := by
  induction tokens generalizing start with
  | nil => exact .nil
  | cons first later ih =>
    obtain ⟨-, -, hliteral, hlater⟩ := h
    refine .cons ?_ (ih hlater)
    intro token htoken
    have hbounds := hlater.bounds.2 token htoken
    omega

theorem Cuts.longest (h : Cuts position text tokens) : ∀ token ∈ tokens,
    Longest token.literal.toList (text.drop (token.position.column - position.column)) := by
  have munched {text : List Char} {m : Munch} (hm : munch text = .ok m) (position : Position) :
      Longest (m.token position).literal.toList
        (text.drop ((m.token position).position.column - position.column)) := by
    simpa [Munch.token] using longest_of_munch hm
  induction h with
  | done => simp
  | @blank position c text tokens _ hlater ih =>
    intro token htoken
    have hbounds := hlater.laid.bounds.2 token htoken
    have hcount : token.position.column - position.column =
        token.position.column - (position.column + 1) + 1 := by
      simp only at hbounds
      omega
    rw [hcount, List.drop_succ_cons]
    exact ih token htoken
  | comment _ hmunch _ =>
    intro token htoken
    rw [List.mem_singleton.mp htoken]
    exact munched hmunch _
  | @token position c text m tokens _ hmunch _ hlater ih =>
    intro token htoken
    obtain rfl | htoken := List.mem_cons.mp htoken
    · exact munched hmunch _
    · have hbounds := hlater.laid.bounds.2 token htoken
      have hcount : token.position.column - position.column =
          m.literal.length + (token.position.column - (position.column + m.literal.length)) := by
        simp only at hbounds
        omega
      rw [hcount, ← List.drop_drop, ← append_of_munch hmunch, List.drop_left]
      exact ih token htoken

/-- What no token covers is blank, or a comment. -/
theorem Cuts.blank_or_comment (h : Cuts position text tokens) {i : Nat} {c : Char}
    (hc : text[i]? = some c) (hout : ∀ token ∈ tokens, ¬ token.Covers (position.column + i)) :
    Text.isBlank c = true ∨
      ∃ token ∈ tokens, token.kind = .hash ∧ token.position.column < position.column + i := by
  have behind {m : Munch} {position : Position} {i : Nat}
      (hout : ¬ (m.token position).Covers (position.column + i)) : m.literal.length ≤ i := by
    simp only [Token.Covers, Munch.token, String.length_ofList] at hout
    omega
  induction h generalizing i with
  | done => simp at hc
  | @blank position first text tokens hblank _ ih =>
    cases i with
    | zero =>
      cases hc
      exact .inl hblank
    | succ i =>
      rw [Nat.add_comm i, ← Nat.add_assoc] at hout ⊢
      exact ih hc hout
  | @comment position _ _ m _ hmunch hkind =>
    have hlength := behind (hout _ List.mem_cons_self)
    have hpos := literal_pos_of_munch hmunch
    refine .inr ⟨_, List.mem_cons_self, m.kind_token_of_hash hkind position, ?_⟩
    simp only [Munch.token]
    omega
  | @token position _ _ m tokens _ hmunch _ _ ih =>
    obtain ⟨j, rfl⟩ := Nat.exists_eq_add_of_le (behind (hout _ List.mem_cons_self))
    rw [← append_of_munch hmunch, List.getElem?_append_right (Nat.le_add_right _ _),
      Nat.add_sub_cancel_left] at hc
    rw [← Nat.add_assoc] at hout ⊢
    obtain hblank | ⟨token, htoken, hhash⟩ :=
      ih hc fun token htoken => hout token (List.mem_cons_of_mem _ htoken)
    · exact .inl hblank
    · exact .inr ⟨token, List.mem_cons_of_mem _ htoken, hhash⟩

end Scan

theorem Token.Scanned.defined {token : Token} (h : token.Scanned) : token.Defined := by
  obtain ⟨d, hd, hcomplete, hkind⟩ := h
  refine ⟨d, Lexicon.filter_complete hd hcomplete, ?_, ?_⟩
  · intro word
    rw [hkind]
    exact Lexicon.reclassify_eq_keyword_iff hd
  · intro hword
    obtain hsame | ⟨word, hkeyword⟩ := Lexicon.reclassify_cases .longest d.kind token.literal
    · exact hkind.trans hsame
    · exact absurd (hkind.trans hkeyword) (hword word)

/-- A line that can be cut into tokens is cut by maximal munch, and nothing but blanks and a
comment is left over. -/
theorem Token.ofLineBy_munched {words : Keyword.Recogniser} {line : Nat} {text : String}
    {tokens : List Token} (hwords : words.LongestMatch)
    (h : Token.ofLineBy words line text = .ok tokens) :
    Scan.Munched line text.toList tokens := by
  rw [Token.ofLineBy_eq hwords] at h
  have hcuts := Scan.cuts_of_scan h
  refine ⟨?_, (Cursor.laid_ofLine h).apart, hcuts.longest, ?_, hcuts.hash_last, ?_⟩
  · intro token htoken
    have hbounds := (Cursor.laid_ofLine h).bounds.2 token htoken
    exact ⟨hbounds.1, hbounds.2.1⟩
  · intro token htoken
    exact (Scan.scanned_of_scan h token htoken).defined
  · intro i c hc hout
    rw [Nat.add_comm i 1] at hout ⊢
    exact hcuts.blank_or_comment hc hout

/-- A string keeps its comment sign and counts characters, a second point is no part of a
float, a word that goes on is not reserved, and a comment is not cut. -/
theorem Token.ofLineBy_munched_points :
    let text := "print \"é #\"+=1.5.printlx #\"~"
    let tokens : List Token :=
      [⟨.keyword .print, "print", ⟨2, 1⟩⟩, ⟨.string, "\"é #\"", ⟨2, 7⟩⟩,
        ⟨.plusEquals, "+=", ⟨2, 12⟩⟩, ⟨.float, "1.5", ⟨2, 14⟩⟩, ⟨.period, ".", ⟨2, 17⟩⟩,
        ⟨.identifier, "printlx", ⟨2, 18⟩⟩, ⟨.hash, "#", ⟨2, 26⟩⟩]
    Keyword.Recogniser.longest.LongestMatch ∧ Token.ofLineBy .longest 2 text = .ok tokens ∧
      Scan.Munched 2 text.toList tokens := by
  intro text tokens
  have hscan : Token.ofLineBy .longest 2 text = .ok tokens := by decide +kernel
  exact ⟨Keyword.longestMatch_longest, hscan,
    Token.ofLineBy_munched Keyword.longestMatch_longest hscan⟩

end LineScript
