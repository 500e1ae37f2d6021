import LineScript.Proofs.CommentSigns

/-!
# Tokens with other blanks between them

The literal of a token is found again wherever a blank or the end of the line stands
behind it (`Scan.Longest.of_isToken`). So the tokens of a line can be written down again
with any blanks between them and around them, and are the same tokens when that line is
scanned (`Token.ofLine_respaced`). Without a blank between them they may grow together.
-/

namespace LineScript

/-- What a token is, apart from its place. -/
def Token.lexeme (token : Token) : TokenKind × String :=
  (token.kind, token.literal)

/-- A line with the literals of the tokens, each with its gap behind it. -/
def Token.respaced (lead : String) (tokens : List Token) (gaps : List String) : String :=
  lead ++ String.join (List.zipWith (fun token gap => token.literal ++ gap) tokens gaps)

namespace Scan

variable {text literal gap : List Char} {c : Char} {position : Position} {token : Token}
variable {tokens : List Token}

/-- A token is the longest one in front of a blank or of the end of the line. -/
theorem Longest.of_isToken (h : Lexicon.IsToken literal)
    (htext : ∀ c ∈ text.head?, Text.isBlank c = true) : Longest literal (literal ++ text) := by
  have hself : Longest literal literal :=
    { front := List.prefix_refl literal
      token := h
      most := fun _ hpiece _ => hpiece.length_le }
  cases text with
  | nil => rwa [List.append_nil]
  | cons c more => exact hself.before_blank (htext c rfl) more

theorem longest_of_scanned (h : token.Scanned)
    (htext : ∀ c ∈ text.head?, Text.isBlank c = true) :
    Longest token.literal.toList (token.literal.toList ++ text) := by
  obtain ⟨d, hd, hcomplete, -⟩ := h
  exact .of_isToken ⟨d, hd, hcomplete⟩ htext

/-- A scanned token can be put in front of a text if nothing longer comes of it. -/
theorem Cuts.of_longest (h : token.Scanned)
    (hlongest : Longest token.literal.toList (token.literal.toList ++ text))
    (hhash : token.kind = .hash → tokens = [])
    (hlater : Cuts { position with column := position.column + token.literal.length } text tokens) :
    Cuts position (token.literal.toList ++ text) ({ token with position } :: tokens) := by
  obtain ⟨d, hd, hcomplete, hkind⟩ := h
  let m : Munch := { kind := d.kind, literal := token.literal.toList, rest := text }
  have hmatched : m.Matched := ⟨d, Lexicon.bestMatch?_eq_some_iff.mpr ⟨hd, hcomplete⟩, rfl⟩
  have hm : munch (token.literal.toList ++ text) = .ok m :=
    munch_eq_ok_iff.mpr ⟨hlongest, rfl, hmatched⟩
  have hplaced : m.token position = { token with position } := by
    simp only [Munch.token, m, String.ofList_toList, ← hkind]
  rw [← String.length_toList] at hlater
  rw [← hplaced]
  cases hcons : token.literal.toList with
  | nil => exact absurd hcons hlongest.token.ne_nil
  | cons c literal =>
    have hblank : Text.isBlank c = false := (hcons ▸ hlongest.token).isBlank_head
    rw [hcons] at hm
    by_cases hsign : m.kind = .hash
    · have hkind := m.kind_token_of_hash hsign position
      rw [hplaced] at hkind
      rw [hhash hkind]
      exact .comment hblank hm hsign
    · exact .token hblank hm hsign hlater

/-- Blanks in front of a text only move it. -/
theorem Cuts.blanks (hgap : ∀ c ∈ gap, Text.isBlank c = true)
    (h : Cuts { position with column := position.column + gap.length } text tokens) :
    Cuts position (gap ++ text) tokens := by
  induction gap generalizing position with
  | nil => exact h
  | cons c gap ih =>
    refine .blank (hgap c List.mem_cons_self) (ih ?_ ?_)
    · intro c hc
      exact hgap c (List.mem_cons_of_mem _ hc)
    · rw [List.length_cons, Nat.add_comm gap.length, ← Nat.add_assoc] at h
      exact h

end Scan

namespace Token

variable {lead gap : String} {tokens : List Token} {gaps : List String} {token : Token}

@[simp] theorem respaced_nil : (respaced lead [] gaps) = lead := by
  simp [respaced]

/-- The gap behind a token leads the line of the later ones. -/
@[simp] theorem respaced_cons :
    respaced lead (token :: tokens) (gap :: gaps) =
      lead ++ (token.literal ++ respaced gap tokens gaps) := by
  simp [respaced, String.append_assoc]

/-- Only the end of a line can follow a token without a gap. -/
theorem isBlank_head_respaced (hblank : ∀ c ∈ gap.toList, Text.isBlank c = true)
    (hgap : tokens ≠ [] → gap ≠ "") :
    ∀ c ∈ (respaced gap tokens gaps).toList.head?, Text.isBlank c = true := by
  intro c hc
  by_cases hempty : gap = ""
  · have htokens : tokens = [] := by
      by_contra htokens
      exact hgap htokens hempty
    rw [htokens, respaced_nil, hempty] at hc
    cases hc
  · have hhead : (respaced gap tokens gaps).toList.head? = gap.toList.head? := by
      rw [respaced, String.toList_append, List.head?_append_of_ne_nil]
      simpa using hempty
    rw [hhead] at hc
    exact hblank c (List.mem_of_mem_head? hc)

theorem forall_mem_dropLast_cons {α : Type} {P : α → Prop} {a : α} {l : List α} :
    (∀ x ∈ (a :: l).dropLast, P x) ↔ (l ≠ [] → P a) ∧ ∀ x ∈ l.dropLast, P x := by
  cases l with
  | nil => simp
  | cons b l => simp

/-- Scanned tokens, with a comment sign at most at their end, are cut out of the line that
is made of them. -/
theorem cuts_respaced (hscanned : ∀ token ∈ tokens, token.Scanned)
    (hhash : ∀ token ∈ tokens.dropLast, token.kind ≠ .hash) (hlength : gaps.length = tokens.length)
    (hblank : ∀ gap ∈ lead :: gaps, ∀ c ∈ gap.toList, Text.isBlank c = true)
    (hgap : ∀ gap ∈ gaps.dropLast, gap ≠ "") (position : Position) :
    ∃ tokens' : List Token, tokens'.map lexeme = tokens.map lexeme ∧
      Scan.Cuts position (respaced lead tokens gaps).toList tokens' := by
  induction tokens generalizing lead gaps position with
  | nil =>
    refine ⟨[], rfl, ?_⟩
    rw [respaced_nil, ← List.append_nil lead.toList]
    exact .blanks (hblank lead List.mem_cons_self) .done
  | cons token tokens ih =>
    cases gaps with
    | nil => cases hlength
    | cons gap gaps =>
      rw [List.length_cons, List.length_cons, Nat.add_right_cancel_iff] at hlength
      obtain ⟨htoken, hscanned⟩ := List.forall_mem_cons.mp hscanned
      obtain ⟨hlead, hblank⟩ := List.forall_mem_cons.mp hblank
      obtain ⟨hsign, hhash⟩ := forall_mem_dropLast_cons.mp hhash
      obtain ⟨hspace, hgap⟩ := forall_mem_dropLast_cons.mp hgap
      let start : Position := { position with column := position.column + lead.toList.length }
      let next : Position := { start with column := start.column + token.literal.length }
      obtain ⟨later, hlater, hcuts⟩ := ih hscanned hhash hlength hblank hgap next
      have hend : token.kind = .hash → later = [] := by
        intro hkind
        have htokens : tokens = [] := by
          by_contra htokens
          exact hsign htokens hkind
        rwa [htokens, List.map_nil, List.map_eq_nil_iff] at hlater
      have hnext : ∀ c ∈ (respaced gap tokens gaps).toList.head?, Text.isBlank c = true := by
        apply isBlank_head_respaced (hblank gap List.mem_cons_self)
        intro htokens
        apply hspace
        rintro rfl
        exact htokens (List.eq_nil_of_length_eq_zero hlength.symm)
      have hlongest := Scan.longest_of_scanned htoken hnext
      refine ⟨{ token with position := start } :: later, ?_, ?_⟩
      · rw [List.map_cons, List.map_cons, hlater]
        rfl
      · rw [respaced_cons, String.toList_append, String.toList_append]
        exact .blanks hlead (.of_longest htoken hlongest hend hcuts)

end Token

/-- The tokens of a line are found again if they are written with other blanks between them. -/
theorem Token.ofLine_respaced {line line' : Nat} {text lead : String} {tokens : List Token}
    {gaps : List String} (h : Token.ofLine line text = .ok tokens)
    (hlength : gaps.length = tokens.length)
    (hblank : ∀ gap ∈ lead :: gaps, ∀ c ∈ gap.toList, Text.isBlank c = true)
    (hgap : ∀ gap ∈ gaps.dropLast, gap ≠ "") :
    ∃ tokens', Token.ofLine line' (Token.respaced lead tokens gaps) = .ok tokens' ∧
      tokens'.map (fun token => (token.kind, token.literal)) =
        tokens.map fun token => (token.kind, token.literal) := by
  obtain ⟨tokens', hlexemes, hcuts⟩ := Token.cuts_respaced (Scan.scanned_of_scan h)
    (Scan.cuts_of_scan h).hash_last hlength hblank hgap { line := line', column := 1 }
  exact ⟨tokens', Scan.scan_of_cuts hcuts, hlexemes⟩

/-- A string keeps its own blanks, and the text of the comment is gone. -/
theorem Token.ofLine_respaced_string :
    let text := "\"a  b\"+1.5#c"
    let tokens : List Token :=
      [⟨.string, "\"a  b\"", ⟨1, 1⟩⟩, ⟨.plus, "+", ⟨1, 7⟩⟩, ⟨.float, "1.5", ⟨1, 8⟩⟩,
        ⟨.hash, "#", ⟨1, 11⟩⟩]
    Token.ofLine 1 text = .ok tokens ∧
      Token.respaced "" tokens ["\t", " ", "  ", ""] = "\"a  b\"\t+ 1.5  #" ∧
      ∃ tokens', Token.ofLine 4 "\"a  b\"\t+ 1.5  #" = .ok tokens' ∧
        tokens'.map (fun token => (token.kind, token.literal)) =
          tokens.map fun token => (token.kind, token.literal) := by
  intro text tokens
  have hscan : Token.ofLine 1 text = .ok tokens := by decide +kernel
  have hline : Token.respaced "" tokens ["\t", " ", "  ", ""] = "\"a  b\"\t+ 1.5  #" := by
    decide +kernel
  have hblank : ["", "\t", " ", "  ", ""].all (fun gap => gap.toList.all Text.isBlank) = true := by
    decide +kernel
  refine ⟨hscan, hline, ?_⟩
  rw [← hline]
  refine Token.ofLine_respaced hscan (by decide) ?_ (by decide)
  intro gap hgap
  exact List.all_eq_true.mp (List.all_eq_true.mp hblank gap hgap)

end LineScript
