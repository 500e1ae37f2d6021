import LineScript.Proofs.Scanning.Viability

/-!
# Maximal munch

Growing a text one character at a time finds the longest token at its front, and finds one
whenever there is one (`Scan.grow_of_isToken`). So cutting off a token says no more than
that its text is the longest (`Scan.munch_eq_ok_iff`), and later proofs need not look at how
it was found.
-/

namespace LineScript

namespace Scan

variable {taken rest text literal piece : List Char} {best : Option Munch} {m : Munch}

theorem append_of_grow (hbest : ∀ b ∈ best, b.literal ++ b.rest = taken ++ rest)
    (h : grow taken best rest = .ok m) : m.literal ++ m.rest = taken ++ rest := by
  fun_induction grow taken best rest with
  | case1 =>
    cases h
    exact hbest m rfl
  | case2 => cases h
  | case3 _ _ c rest longer _ d hd ih =>
    have hsame : longer ++ rest = _ ++ c :: rest := List.append_assoc ..
    refine (ih ?_ h).trans hsame
    rintro b ⟨⟩
    rfl
  | case4 _ best c rest longer _ _ ih =>
    have hsame : longer ++ rest = _ ++ c :: rest := List.append_assoc ..
    refine (ih ?_ h).trans hsame
    intro b hb
    exact (hbest b hb).trans hsame.symm
  | case5 =>
    cases h
    exact hbest m rfl
  | case6 => cases h

/-- A token is a piece of the text, and the rest is what comes behind it. -/
theorem append_of_munch (h : munch text = .ok m) : m.literal ++ m.rest = text :=
  append_of_grow (by simp) h

theorem literal_pos_of_munch (h : munch text = .ok m) : 0 < m.literal.length := by
  have hrest := length_rest_of_munch h
  have htext := congrArg List.length (append_of_munch h)
  rw [List.length_append] at htext
  omega

/-! ## Longest tokens -/

/-- The literal is the longest token at the front of the text. -/
structure Longest (literal text : List Char) : Prop where
  front : literal <+: text
  token : Lexicon.IsToken literal
  most : ∀ ⦃piece⦄, piece <+: text → Lexicon.IsToken piece → piece.length ≤ literal.length

theorem Longest.unique {other : List Char} (h : Longest literal text) (h' : Longest other text) :
    literal = other := by
  have hle := h'.most h.front h.token
  have hge := h.most h'.front h'.token
  exact (List.prefix_of_prefix_length_le h.front h'.front hle).eq_of_length_le hge

/-- Less text has no longer token at its front. -/
theorem Longest.of_front {front : List Char} (h : Longest literal text)
    (hliteral : literal <+: front) (hfront : front <+: text) : Longest literal front where
  front := hliteral
  token := h.token
  most _ hpiece htoken := h.most (hpiece.trans hfront) htoken

/-- A text with a token at its front grows into a token that is not shorter. -/
theorem grow_of_isToken
    (hbest : ∀ ⦃piece⦄, piece <+: taken → Lexicon.IsToken piece →
      ∃ b ∈ best, piece.length ≤ b.literal.length)
    (hpiece : piece <+: taken ++ rest) (htoken : Lexicon.IsToken piece) :
    ∃ m, grow taken best rest = .ok m ∧ piece.length ≤ m.literal.length := by
  induction rest generalizing taken best with
  | nil =>
    rw [List.append_nil] at hpiece
    obtain ⟨b, rfl, hlength⟩ := hbest hpiece htoken
    exact ⟨b, rfl, hlength⟩
  | cons c rest ih =>
    have hlonger : piece <+: (taken ++ [c]) ++ rest := by simpa using hpiece
    by_cases hviable : Lexicon.viable (taken ++ [c]) = true
    case pos =>
      cases hmatch : Lexicon.bestMatch? (taken ++ [c]) with
      | some d =>
        simp only [grow, hviable, if_true, hmatch]
        refine ih ?_ hlonger
        intro piece hpiece _
        exact ⟨_, rfl, hpiece.length_le⟩
      | none =>
        simp only [grow, hviable, if_true, hmatch]
        refine ih ?_ hlonger
        intro piece hpiece htoken
        obtain rfl | hpiece := List.prefix_concat_iff.mp hpiece
        · exact absurd htoken (Lexicon.bestMatch?_eq_none_iff.mp hmatch)
        · exact hbest hpiece htoken
    case neg =>
      -- A token that goes on behind the cut would make the text up to it viable.
      have hshort : piece.length ≤ taken.length := by
        by_contra hlong
        have hcut : taken ++ [c] <+: piece := by
          refine List.prefix_of_prefix_length_le (List.prefix_append _ rest) hlonger ?_
          simp only [List.length_append, List.length_singleton]
          omega
        obtain ⟨back, rfl⟩ := hcut
        exact hviable (Lexicon.viable_of_append (Lexicon.viable_of_isToken htoken) (by simp))
      have hfront := List.prefix_of_prefix_length_le hpiece (List.prefix_append taken _) hshort
      obtain ⟨b, rfl, hlength⟩ := hbest hfront htoken
      refine ⟨b, ?_, hlength⟩
      simp only [grow, hviable, Bool.false_eq_true, if_false]

theorem munch_of_isToken (hpiece : piece <+: text) (htoken : Lexicon.IsToken piece) :
    ∃ m, munch text = .ok m ∧ piece.length ≤ m.literal.length := by
  refine grow_of_isToken ?_ hpiece htoken
  intro piece hpiece htoken
  exact absurd (List.prefix_nil.mp hpiece) htoken.ne_nil

theorem Munch.Matched.isToken (h : m.Matched) : Lexicon.IsToken m.literal := by
  obtain ⟨d, hmatch, -⟩ := h
  obtain ⟨hd, hcomplete⟩ := Lexicon.complete_of_bestMatch? hmatch
  exact ⟨d, hd, hcomplete⟩

theorem longest_of_munch (h : munch text = .ok m) : Longest m.literal text where
  front := ⟨m.rest, append_of_munch h⟩
  token := (matched_of_grow (by simp) h).isToken
  most piece hpiece htoken := by
    obtain ⟨m', hm', hlength⟩ := munch_of_isToken hpiece htoken
    rw [h] at hm'
    cases hm'
    exact hlength

/-- What is cut off is the longest token, with the kind of its definition. -/
theorem munch_eq_ok_iff : munch text = .ok m ↔
    Longest m.literal text ∧ m.literal ++ m.rest = text ∧ m.Matched := by
  constructor
  · intro h
    exact ⟨longest_of_munch h, append_of_munch h, matched_of_grow (by simp) h⟩
  · rintro ⟨hlongest, htext, hmatched⟩
    obtain ⟨m', hm', -⟩ := munch_of_isToken hlongest.front hlongest.token
    have hliteral := hlongest.unique (longest_of_munch hm')
    have htext' := append_of_munch hm'
    obtain ⟨d, hmatch, hkind⟩ := hmatched
    obtain ⟨d', hmatch', hkind'⟩ := matched_of_grow (by simp) hm'
    obtain ⟨kind, literal, rest⟩ := m
    obtain ⟨kind', literal', rest'⟩ := m'
    simp only at hliteral htext htext' hmatch hkind hmatch' hkind'
    subst hliteral
    rw [hmatch] at hmatch'
    cases hmatch'
    rw [hm', ← hkind, ← hkind', List.append_cancel_left (htext.trans htext'.symm)]

end Scan

end LineScript
