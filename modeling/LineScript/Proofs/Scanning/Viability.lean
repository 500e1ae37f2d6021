import LineScript.Proofs.Spelling
import Mathlib.Data.List.Nodup

/-!
# Texts that can become tokens

A scanner grows a text for as long as the text is viable. That this finds the longest
token rests on three facts about the lexicon: a token is viable, whatever a viable text
begins with is viable (`Lexicon.viable_of_append`), and no text is a token of two
definitions (`Lexicon.filter_complete`). The last one leaves the priorities nothing to
decide. A text is not grown in vain either: what is viable can be completed
(`Pattern.exists_complete_of_viable`).
-/

namespace LineScript

/-- The codes of letters. -/
theorem Text.toNat_of_isAlpha {c : Char} (h : c.isAlpha = true) :
    65 ≤ c.toNat ∧ c.toNat ≤ 90 ∨ 97 ≤ c.toNat ∧ c.toNat ≤ 122 := by
  have hcase : (c.isUpper || c.isLower) = true := h
  obtain hupper | hlower := Bool.or_eq_true_iff.mp hcase
  · have hrange := of_decide_eq_true hupper
    exact .inl ⟨UInt32.le_iff_toNat_le.mp hrange.1, UInt32.le_iff_toNat_le.mp hrange.2⟩
  · have hrange := Bool.and_eq_true_iff.mp hlower
    exact .inr ⟨UInt32.le_iff_toNat_le.mp (of_decide_eq_true hrange.1),
      UInt32.le_iff_toNat_le.mp (of_decide_eq_true hrange.2)⟩

theorem Text.toNat_of_isDigit {c : Char} (h : c.isDigit = true) :
    48 ≤ c.toNat ∧ c.toNat ≤ 57 :=
  Char.isDigit_iff_toNat.mp h

/-! ## Patterns -/

namespace Pattern

variable {text front back : List Char} {p q : Pattern}

/-- A string has a quote at its front, one at its end, and none between. -/
theorem complete_quoted_iff : complete .quoted text = true ↔
    ∃ inner, text = '"' :: (inner ++ ['"']) ∧ '"' ∉ inner := by
  constructor
  · intro h
    cases text with
    | nil => cases h
    | cons first rest =>
      by_cases hfirst : first = '"'
      case neg => simp [complete, hfirst] at h
      subst hfirst
      have hdrop : rest.dropWhile (· != '"') = ['"'] := of_decide_eq_true h
      refine ⟨rest.takeWhile (· != '"'), ?_, ?_⟩
      · rw [← hdrop, List.takeWhile_append_dropWhile]
      · intro hmem
        simpa using List.all_eq_true.mp List.all_takeWhile _ hmem
  · rintro ⟨inner, rfl, hinner⟩
    have hquote : ∀ c ∈ inner, (c != '"') = true := by
      intro c hc
      rw [bne_iff_ne]
      rintro rfl
      exact hinner hc
    simp only [complete]
    rw [List.dropWhile_append_of_pos hquote]
    rfl

/-- An unfinished string has no quote behind the first, and a finished one has it at its
end. -/
theorem viable_quoted_iff : viable .quoted text = true ↔
    ∃ body, text = '"' :: body ∧ '"' ∉ body.dropLast := by
  constructor
  · intro h
    cases text with
    | nil => cases h
    | cons first body =>
      by_cases hfirst : first = '"'
      case neg => simp [viable, hfirst] at h
      subst hfirst
      refine ⟨body, rfl, ?_⟩
      have hfront : '"' ∉ body.takeWhile (· != '"') := by
        intro hmem
        simpa using List.all_eq_true.mp List.all_takeWhile _ hmem
      have hbody := List.takeWhile_append_dropWhile (p := (· != '"')) (l := body)
      simp only [viable] at h
      split at h
      case h_1 hdrop =>
        rw [hdrop, List.append_nil] at hbody
        intro hmem
        rw [← hbody] at hmem
        exact hfront (List.dropLast_subset _ hmem)
      case h_2 quote later hdrop =>
        rw [hdrop, List.isEmpty_iff.mp h] at hbody
        rwa [← hbody, List.dropLast_concat]
  · rintro ⟨body, rfl, hbody⟩
    obtain rfl | ⟨inner, last, rfl⟩ := List.eq_nil_or_concat' body
    · rfl
    rw [List.dropLast_concat] at hbody
    have hquote : ∀ c ∈ inner, (c != '"') = true := by
      intro c hc
      rw [bne_iff_ne]
      rintro rfl
      exact hbody hc
    simp only [viable]
    rw [List.dropWhile_append_of_pos hquote]
    by_cases hlast : last = '"' <;> simp [hlast]

theorem contains_of_complete_float (h : complete .float text = true) :
    text.contains '.' = true := by
  obtain ⟨whole, fraction, rfl, -⟩ := complete_float_iff.mp h
  simp

theorem viable_of_complete (h : p.complete text = true) : p.viable text = true := by
  cases p with
  | fixed spelling =>
    rw [of_decide_eq_true h]
    simp [viable]
  | identifier => exact h
  | integer => exact h
  | float => simpa only [viable, contains_of_complete_float h, if_true] using h
  | quoted =>
    obtain ⟨inner, rfl, hinner⟩ := complete_quoted_iff.mp h
    exact viable_quoted_iff.mpr ⟨_, rfl, by rwa [List.dropLast_concat]⟩

theorem complete_integer_of_append (h : complete .integer (front ++ back) = true)
    (hfront : front ≠ []) : complete .integer front = true :=
  complete_integer_iff.mpr
    ⟨hfront, fun c hc => (complete_integer_iff.mp h).2 c (List.mem_append_left _ hc)⟩

theorem contains_of_complete_integer (h : complete .integer text = true) :
    text.contains '.' = false := by
  rw [Bool.eq_false_iff]
  intro hmem
  have hdigit := (complete_integer_iff.mp h).2 '.' (by simpa using hmem)
  exact absurd hdigit (by decide)

/-- What an unfinished float begins with is an integer up to the point, and behind the
point a float. -/
theorem viable_float_of_append (h : viable .float (front ++ back) = true) (hfront : front ≠ []) :
    viable .float front = true := by
  have integer (h : complete .integer front = true) : viable .float front = true := by
    simpa only [viable, contains_of_complete_integer h, Bool.false_eq_true, if_false] using h
  simp only [viable] at h
  split at h
  case isFalse => exact integer (complete_integer_of_append h hfront)
  case isTrue =>
    obtain ⟨whole, fraction, htext, hwhole, hfraction⟩ := complete_float_iff.mp h
    obtain ⟨more, rfl, -⟩ | ⟨more, rfl, hmore⟩ := List.append_eq_append_iff.mp htext
    · exact integer (complete_integer_of_append hwhole hfront)
    · cases more with
      | nil => exact integer (by simpa using hwhole)
      | cons point more =>
        rw [List.cons_append, List.cons.injEq] at hmore
        obtain ⟨rfl, rfl⟩ := hmore
        exact viable_of_complete (complete_float_iff.mpr
          ⟨whole, more, rfl, hwhole, fun c hc => hfraction c (List.mem_append_left _ hc)⟩)

/-- What a viable text begins with is viable. -/
theorem viable_of_append (h : p.viable (front ++ back) = true) (hfront : front ≠ []) :
    p.viable front = true := by
  cases p with
  | fixed spelling =>
    have hspelling : front ++ back <+: spelling := List.isPrefixOf_iff_prefix.mp h
    exact List.isPrefixOf_iff_prefix.mpr ((List.prefix_append front back).trans hspelling)
  | identifier =>
    cases front with
    | nil => exact absurd rfl hfront
    | cons first front =>
      simp only [viable, complete, List.cons_append, List.all_append, Bool.and_eq_true] at h ⊢
      exact ⟨h.1, h.2.1⟩
  | integer => exact complete_integer_of_append h hfront
  | float => exact viable_float_of_append h hfront
  | quoted =>
    obtain ⟨body, hbody, hquote⟩ := viable_quoted_iff.mp h
    cases front with
    | nil => exact absurd rfl hfront
    | cons first front =>
      rw [List.cons_append, List.cons.injEq] at hbody
      obtain ⟨rfl, rfl⟩ := hbody
      refine viable_quoted_iff.mpr ⟨front, rfl, fun hmem => hquote ?_⟩
      rw [List.dropLast_append]
      split
      · exact hmem
      · exact List.mem_append_left _ (List.dropLast_subset _ hmem)

/-- A viable string lacks at most its closing quote. -/
theorem exists_complete_of_viable_quoted (h : viable .quoted text = true) :
    ∃ more, complete .quoted (text ++ more) = true := by
  obtain ⟨body, rfl, hbody⟩ := viable_quoted_iff.mp h
  obtain rfl | ⟨inner, last, rfl⟩ := List.eq_nil_or_concat' body
  · exact ⟨['"'], rfl⟩
  rw [List.dropLast_concat] at hbody
  by_cases hlast : last = '"'
  · subst hlast
    exact ⟨[], complete_quoted_iff.mpr ⟨inner, List.append_nil _, hbody⟩⟩
  · refine ⟨['"'], complete_quoted_iff.mpr ⟨inner ++ [last], rfl, ?_⟩⟩
    rw [List.mem_append, List.mem_singleton]
    exact not_or.mpr ⟨hbody, Ne.symm hlast⟩

/-- A viable text can be completed. -/
theorem exists_complete_of_viable (h : p.viable text = true) :
    ∃ more, p.complete (text ++ more) = true := by
  cases p with
  | fixed spelling =>
    obtain ⟨more, hmore⟩ : text <+: spelling := List.isPrefixOf_iff_prefix.mp h
    exact ⟨more, decide_eq_true hmore⟩
  | identifier => exact ⟨[], by rwa [List.append_nil]⟩
  | integer => exact ⟨[], by rwa [List.append_nil]⟩
  | float =>
    simp only [viable] at h
    split at h
    case isTrue => exact ⟨[], by rwa [List.append_nil]⟩
    case isFalse => exact ⟨['.'], complete_float_iff.mpr ⟨text, [], rfl, h, by simp⟩⟩
  | quoted => exact exists_complete_of_viable_quoted h

/-- A text is viable exactly if it can be completed. -/
theorem viable_iff (htext : text ≠ []) :
    p.viable text = true ↔ ∃ more, p.complete (text ++ more) = true := by
  constructor
  · exact exists_complete_of_viable
  · rintro ⟨more, hmore⟩
    exact viable_of_append (viable_of_complete hmore) htext

/-- The text of a fixed spelling. -/
def spelling : Pattern → List Char
  | .fixed spelling => spelling
  | _ => []

/-- The pattern that is left for a text by its first character and its point, if any. -/
def ofText : List Char → Pattern
  | [] => .fixed []
  | c :: rest =>
    if c.isAlpha then .identifier
    else if c.isDigit then if rest.contains '.' then .float else .integer
    else if c = '"' then .quoted
    else .fixed (c :: rest)

theorem isAlpha_eq_false_of_isDigit {c : Char} (h : c.isDigit = true) : c.isAlpha = false := by
  rw [Bool.eq_false_iff]
  intro halpha
  have hletter := Text.toNat_of_isAlpha halpha
  have hdigit := Text.toNat_of_isDigit h
  omega

/-- A text is complete for no pattern but the one that is left for it. -/
theorem ofText_of_complete (hfixed : ofText p.spelling = .fixed p.spelling)
    (h : p.complete text = true) :
    ofText text = p := by
  cases p with
  | fixed spelling =>
    rw [of_decide_eq_true h]
    exact hfixed
  | identifier =>
    cases text with
    | nil => cases h
    | cons first rest =>
      simp only [complete, Bool.and_eq_true] at h
      rw [ofText, if_pos h.1]
  | integer =>
    cases text with
    | nil => cases h
    | cons first rest =>
      have hpoint := contains_of_complete_integer h
      have hfirst := (complete_integer_iff.mp h).2 first List.mem_cons_self
      rw [List.contains_cons, Bool.or_eq_false_iff] at hpoint
      simp only [ofText, isAlpha_eq_false_of_isDigit hfirst, hfirst, hpoint.2, if_true,
        Bool.false_eq_true, if_false]
  | float =>
    obtain ⟨whole, fraction, rfl, hwhole, -⟩ := complete_float_iff.mp h
    cases whole with
    | nil => cases hwhole
    | cons first whole =>
      have hfirst := (complete_integer_iff.mp hwhole).2 first List.mem_cons_self
      simp [ofText, isAlpha_eq_false_of_isDigit hfirst, hfirst]
  | quoted =>
    obtain ⟨inner, rfl, -⟩ := complete_quoted_iff.mp h
    rfl

end Pattern

/-! ## The lexicon -/

namespace Lexicon

variable {text front back : List Char} {d e : Definition}

/-- The text is complete for some definition. -/
def IsToken (text : List Char) : Prop :=
  ∃ d ∈ definitions, d.pattern.complete text = true

instance : DecidablePred IsToken :=
  fun _ => inferInstanceAs (Decidable (∃ _ ∈ definitions, _))

theorem pattern_eq_ofText (hd : d ∈ definitions) (h : d.pattern.complete text = true) :
    d.pattern = Pattern.ofText text := by
  have hfixed : ∀ d ∈ definitions,
      Pattern.ofText d.pattern.spelling = .fixed d.pattern.spelling := by decide
  exact (Pattern.ofText_of_complete (hfixed d hd) h).symm

/-- No text is a token of two definitions. -/
theorem eq_of_complete (hd : d ∈ definitions) (he : e ∈ definitions)
    (h : d.pattern.complete text = true) (h' : e.pattern.complete text = true) : d = e := by
  have hpattern : ∀ d ∈ definitions, ∀ e ∈ definitions, d.pattern = e.pattern → d = e := by decide
  exact hpattern d hd e he ((pattern_eq_ofText hd h).trans (pattern_eq_ofText he h').symm)

theorem filter_complete (hd : d ∈ definitions) (h : d.pattern.complete text = true) :
    definitions.filter (fun e => e.pattern.complete text) = [d] := by
  have hnodup : definitions.Nodup := by decide
  apply List.perm_singleton.mp
  rw [List.perm_ext_iff_of_nodup (hnodup.filter _) (List.nodup_singleton d)]
  intro e
  rw [List.mem_filter, List.mem_singleton]
  constructor
  · intro he
    exact eq_of_complete he.1 hd he.2 h
  · rintro rfl
    exact ⟨hd, h⟩

theorem bestMatch?_eq_some_iff :
    bestMatch? text = some d ↔ d ∈ definitions ∧ d.pattern.complete text = true := by
  constructor
  · exact complete_of_bestMatch?
  · intro h
    rw [bestMatch?, filter_complete h.1 h.2]
    rfl

theorem bestMatch?_eq_none_iff : bestMatch? text = none ↔ ¬ IsToken text := by
  rw [Option.eq_none_iff_forall_ne_some]
  simp only [ne_eq, bestMatch?_eq_some_iff, IsToken, not_exists]

theorem viable_of_isToken (h : IsToken text) : viable text = true := by
  obtain ⟨d, hd, hcomplete⟩ := h
  exact List.any_eq_true.mpr ⟨d, hd, Pattern.viable_of_complete hcomplete⟩

theorem viable_of_append (h : viable (front ++ back) = true) (hfront : front ≠ []) :
    viable front = true := by
  obtain ⟨d, hd, hviable⟩ := List.any_eq_true.mp h
  exact List.any_eq_true.mpr ⟨d, hd, Pattern.viable_of_append hviable hfront⟩

theorem IsToken.ne_nil (h : IsToken text) : text ≠ [] := by
  rintro rfl
  revert h
  decide

/-- A text is viable exactly if it begins a token. The empty text begins every one. -/
theorem viable_iff : viable text = true ↔ ∃ more, IsToken (text ++ more) := by
  constructor
  · intro h
    obtain ⟨d, hd, hviable⟩ := List.any_eq_true.mp h
    obtain ⟨more, hmore⟩ := Pattern.exists_complete_of_viable hviable
    exact ⟨more, d, hd, hmore⟩
  · rintro ⟨more, hmore⟩
    cases text with
    | nil => rfl
    | cons first rest => exact viable_of_append (viable_of_isToken hmore) (List.cons_ne_nil _ _)

theorem length_filter_complete (text : List Char) :
    (definitions.filter fun d => d.pattern.complete text).length ≤ 1 := by
  cases hfilter : definitions.filter fun d => d.pattern.complete text with
  | nil => exact Nat.zero_le 1
  | cons d later =>
    have hd : d ∈ definitions.filter fun d => d.pattern.complete text :=
      hfilter ▸ List.mem_cons_self
    rw [List.mem_filter] at hd
    rw [← hfilter, filter_complete hd.1 hd.2]
    exact Nat.le_refl 1

/-- Viability is exact. A text is viable for a pattern if and only if it can be completed for
it, whatever the pattern spells; so a text is viable for the lexicon if and only if it begins a
token, what a viable text begins with is viable, and no two entries of the lexicon know the
same text. -/
theorem viability_exact :
    (∀ (p : Pattern) (text : List Char), text ≠ [] →
      (p.viable text = true ↔ ∃ more, p.complete (text ++ more) = true)) ∧
    (∀ text : List Char, viable text = true ↔ ∃ more, IsToken (text ++ more)) ∧
    (∀ front text : List Char, front <+: text → front ≠ [] → viable text = true →
      viable front = true) ∧
    ∀ text : List Char, (definitions.filter fun d => d.pattern.complete text).length ≤ 1 := by
  refine ⟨fun _ _ => Pattern.viable_iff, fun _ => viable_iff, ?_, length_filter_complete⟩
  rintro front text ⟨back, rfl⟩ hfront htext
  exact viable_of_append htext hfront

/-- An open string with a letter outside of ASCII, half an operator, and a number that waits for
its fraction. -/
theorem viability_exact_unfinished :
    (∃ more, Pattern.quoted.complete (['"', 'é'] ++ more) = true) ∧
    (∃ more, (Pattern.fixed ['!', '=']).complete (['!'] ++ more) = true) ∧
    (∃ more, IsToken (['1', '2', '.'] ++ more)) ∧ viable ['1', '2'] = true ∧
    ¬ ∃ more, IsToken (['1', '.', '.'] ++ more) := by
  obtain ⟨hpattern, hlexicon, hfront, -⟩ := viability_exact
  refine ⟨(hpattern .quoted _ (by decide)).mp (by decide),
    (hpattern (.fixed _) _ (by decide)).mp (by decide), (hlexicon _).mp (by decide),
    hfront ['1', '2'] ['1', '2', '.'] ⟨['.'], rfl⟩ (by decide) (by decide), ?_⟩
  rw [← hlexicon]
  decide

end Lexicon

end LineScript
