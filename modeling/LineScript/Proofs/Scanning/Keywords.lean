import LineScript.Token.Scan

/-!
# How reserved words are found

The recogniser of reserved words is a parameter of the scanner, and one thing is asked of it: where
it finds a word, this is the longest reserved word that stands there (`LongestMatch`). Then a text
is looked up as the word that it spells, and as nothing if it goes on behind a word
(`Recogniser.lookup_eq_ofText?`), so all such recognisers give a line the same tokens
(`Token.ofLineBy_eq`). There is such a recogniser (`longestMatch_longest`).

A line is scanned step by step: a blank is dropped, and any other text begins with a token or with
an error (`Scan.scan_blank`, `Scan.scan_of_munch`, `Scan.scan_of_error`).
-/

namespace LineScript

namespace Keyword

variable {text : String} {word : Keyword}

/-- The reserved word spelled exactly so. -/
def ofText? (text : String) : Option Keyword :=
  all.find? fun keyword => keyword.spelling = text

theorem ofText?_eq_some_iff : ofText? text = some word ↔ text = word.spelling := by
  constructor
  · intro h
    have hspelling := List.find?_some h
    exact (of_decide_eq_true hspelling).symm
  · rintro rfl
    cases word <;> decide

/-! ## Words at the front of a text -/

theorem mem_all (word : Keyword) : word ∈ all := by
  cases word <;> decide

/-- The word stands at the front of the text, and no longer one does. -/
structure Leads (word : Keyword) (text : List Char) : Prop where
  front : word.spelling.toList <+: text
  longest : ∀ ⦃other : Keyword⦄, other.spelling.toList <+: text →
    other.spelling.length ≤ word.spelling.length

theorem leads_spelling (word : Keyword) : word.Leads word.spelling.toList where
  front := List.prefix_rfl
  longest other h := by simpa only [String.length_toList] using h.length_le

/-- Reserved words of one length that stand at one place are one word. -/
theorem Leads.unique {other : Keyword} {text : List Char} (h : word.Leads text)
    (hother : other.Leads text) : word = other := by
  have hlength : word.spelling.toList.length = other.spelling.toList.length := by
    rw [String.length_toList, String.length_toList]
    exact Nat.le_antisymm (hother.longest h.front) (h.longest hother.front)
  have hspelling : word.spelling.toList = other.spelling.toList :=
    (List.prefix_of_prefix_length_le h.front hother.front (Nat.le_of_eq hlength)).eq_of_length
      hlength
  have hinj : ∀ word ∈ all, ∀ other ∈ all, word.spelling = other.spelling → word = other := by
    decide
  exact hinj word word.mem_all other other.mem_all (String.toList_inj.mp hspelling)

/-! ## Looking up a text -/

namespace Recogniser

variable {r : Recogniser}

/-- What is asked of a recogniser. The bytes of `front` were taken, and `rest` is left. -/
structure LongestMatch (r : Recogniser) : Prop where
  /-- A word is found exactly if it is the longest that stands there, and the piece is no more than
  the word. -/
  word : ∀ (front rest : String) (word : Keyword) (stop : Nat),
    r.next (front ++ rest) front.utf8ByteSize = some { word := some word, stop } ↔
      word.Leads rest.toList ∧ stop = front.utf8ByteSize + word.spelling.utf8ByteSize
  /-- Nothing is found behind the end of a text. -/
  done : ∀ text : String, r.next text text.utf8ByteSize = none

/-- A text is looked up as the word that it spells. -/
theorem LongestMatch.lookup_eq_some_iff (h : r.LongestMatch) :
    r.lookup text = some word ↔ text = word.spelling := by
  have hfirst (word : Keyword) (stop : Nat) := h.word "" text word stop
  simp only [String.empty_append, String.utf8ByteSize_empty, Nat.zero_add] at hfirst
  constructor
  · intro hlookup
    obtain ⟨piece, hpiece, hlookup⟩ := Option.bind_eq_some_iff.mp hlookup
    obtain ⟨found, hfound, hlookup⟩ := Option.bind_eq_some_iff.mp hlookup
    split at hlookup
    case isTrue => cases hlookup
    case isFalse hwhole =>
      cases hlookup
      obtain ⟨_, stop⟩ := piece
      cases hfound
      obtain ⟨⟨⟨rest, hrest⟩, -⟩, hstop⟩ := (hfirst word stop).mp hpiece
      -- The word ends with the text, so nothing stands behind it.
      have htext : text = word.spelling ++ String.ofList rest := by
        rw [← String.toList_inj, String.toList_append, String.toList_ofList, hrest]
      simp only [Bool.or_eq_true, decide_eq_true_eq, not_or, Decidable.not_not] at hwhole
      have hsize := hwhole.1
      rw [hstop, htext, String.utf8ByteSize_append] at hsize
      have hnone : String.ofList rest = "" := String.utf8ByteSize_eq_zero_iff.mp (by omega)
      rw [htext, hnone, String.append_empty]
  · rintro rfl
    have hpiece := (hfirst word _).mpr ⟨leads_spelling word, rfl⟩
    simp [lookup, hpiece, h.done]

theorem LongestMatch.lookup_eq_ofText? (h : r.LongestMatch) (text : String) :
    r.lookup text = ofText? text := by
  refine Option.ext fun word => ?_
  rw [h.lookup_eq_some_iff, ofText?_eq_some_iff]

end Recogniser

/-! ## A recogniser -/

section longest

variable {text : List Char} {best : Option Keyword} {seen : List Keyword}

/-- Of the words that were looked at, the best one is the longest at the front of the text. -/
structure Best (text : List Char) (seen : List Keyword) (best : Option Keyword) : Prop where
  front : ∀ b ∈ best, b.spelling.toList <+: text
  longest : ∀ word ∈ seen, word.spelling.toList <+: text →
    ∃ b ∈ best, word.spelling.length ≤ b.spelling.length

theorem Best.better (h : Best text seen best) (word : Keyword) :
    Best text (word :: seen) (better text best word) := by
  unfold Keyword.better
  split
  case isTrue hbetter =>
    rw [Bool.and_eq_true, List.isPrefixOf_iff_prefix, Option.all_eq_true] at hbetter
    obtain ⟨hfront, hlonger⟩ := hbetter
    refine ⟨by simpa using hfront, fun other hother hother' => ⟨word, rfl, ?_⟩⟩
    obtain rfl | hother := List.mem_cons.mp hother
    · exact Nat.le_refl _
    · obtain ⟨b, hb, hle⟩ := h.longest other hother hother'
      exact Nat.le_trans hle (Nat.le_of_lt (of_decide_eq_true (hlonger b hb)))
  case isFalse hbetter =>
    refine ⟨h.front, fun other hother hother' => ?_⟩
    obtain rfl | hother := List.mem_cons.mp hother
    · rw [Bool.and_eq_true, List.isPrefixOf_iff_prefix] at hbetter
      cases best with
      | none => exact absurd ⟨hother', rfl⟩ hbetter
      | some b => exact ⟨b, rfl, by simpa [hother'] using hbetter⟩
    · exact h.longest other hother hother'

theorem Best.foldl (words : List Keyword) (h : Best text seen best) :
    Best text (words.reverse ++ seen) (words.foldl (Keyword.better text) best) := by
  induction words generalizing seen best with
  | nil => exact h
  | cons word words ih => simpa using ih (h.better word)

theorem longest?_eq_some_iff {word : Keyword} : longest? text = some word ↔ word.Leads text := by
  have hbest : Best text (all.reverse ++ []) (longest? text) := .foldl all ⟨by simp, by simp⟩
  have hall (word : Keyword) : word ∈ all.reverse ++ [] := by simpa using word.mem_all
  have hleads {word : Keyword} (h : longest? text = some word) : word.Leads text := by
    refine ⟨hbest.front word h, fun other hother => ?_⟩
    obtain ⟨b, hb, hle⟩ := hbest.longest other (hall other) hother
    rw [h] at hb
    cases hb
    exact hle
  refine ⟨hleads, fun h => ?_⟩
  obtain ⟨b, hb, -⟩ := hbest.longest word (hall word) h.front
  rw [hb, h.unique (hleads hb)]

theorem behind_zero (text : List Char) : behind 0 text = text := by
  cases text <;> rfl

theorem behind_cons {n : Nat} (c : Char) (text : List Char) (h : 0 < n) :
    behind n (c :: text) = behind (n - c.utf8Size) text := by
  cases n with
  | zero => exact absurd h (Nat.lt_irrefl 0)
  | succ n => rfl

theorem behind_append (front rest : List Char) :
    behind (String.ofList front).utf8ByteSize (front ++ rest) = rest := by
  induction front with
  | nil => exact behind_zero rest
  | cons c front ih =>
    have hsize : (String.ofList (c :: front)).utf8ByteSize =
        c.utf8Size + (String.ofList front).utf8ByteSize := by
      rw [String.ofList_cons, String.utf8ByteSize_append, String.utf8ByteSize_singleton]
    rw [List.cons_append, hsize, behind_cons c _ (Nat.add_pos_left c.utf8Size_pos _),
      Nat.add_sub_cancel_left, ih]

end longest

/-- Taking the longest word at each place is all that is asked. -/
theorem longestMatch_longest : Recogniser.longest.LongestMatch where
  word front rest word stop := by
    have hbehind : behind front.utf8ByteSize (front ++ rest).toList = rest.toList := by
      have happend := behind_append front.toList rest.toList
      rwa [String.ofList_toList, ← String.toList_append] at happend
    rw [← longest?_eq_some_iff, Recogniser.longest]
    simp only [hbehind]
    cases rest.toList with
    | nil =>
      have hnone : longest? [] = none := by decide
      simp [hnone]
    | cons c later =>
      cases hlongest : longest? (c :: later) with
      | none => simp [hlongest]
      | some found =>
        simp only [hlongest, Option.some.injEq, Piece.mk.injEq]
        constructor
        · rintro ⟨rfl, rfl⟩
          exact ⟨rfl, rfl⟩
        · rintro ⟨rfl, rfl⟩
          exact ⟨rfl, rfl⟩
  done text := by
    have happend := behind_append text.toList []
    rw [String.ofList_toList, List.append_nil] at happend
    simp only [Recogniser.longest, happend]

end Keyword

/-! ## Scanning with a recogniser -/

namespace Lexicon

/-- Reserved words are the same for all recognisers that take the longest. -/
theorem reclassify_eq {words : Keyword.Recogniser} (h : words.LongestMatch) (kind : TokenKind)
    (literal : String) : reclassify words kind literal = reclassify .longest kind literal := by
  unfold reclassify
  rw [h.lookup_eq_ofText?, Keyword.longestMatch_longest.lookup_eq_ofText?]

end Lexicon

theorem Token.ofLineBy_eq {words : Keyword.Recogniser} (h : words.LongestMatch) (line : Nat)
    (text : String) : Token.ofLineBy words line text = Token.ofLine line text := by
  have htoken : Token.reclassify words = Token.reclassify .longest := by
    funext token
    rw [Token.reclassify, Token.reclassify, Lexicon.reclassify_eq h]
  rw [Token.ofLineBy, Token.ofLine, Scan.scan, Scan.scanBy, Scan.scanBy, htoken]

namespace Scan

variable {position : Position} {c : Char} {text : List Char}

/-- The token that a piece of a line at this position is. -/
def Munch.token (m : Munch) (position : Position) : Token :=
  { kind := Lexicon.reclassify .longest m.kind (String.ofList m.literal)
    literal := String.ofList m.literal
    position }

theorem scan_nil (position : Position) : scan position [] = .ok [] := by
  rw [scan, scanBy, cut]
  rfl

theorem scan_blank (hblank : Text.isBlank c = true) :
    scan position (c :: text) = scan { position with column := position.column + 1 } text := by
  rw [scan, scanBy, cut, if_pos hblank]
  rfl

theorem scan_of_error {cause : LexicalError.Cause} (hblank : Text.isBlank c = false)
    (hmunch : munch (c :: text) = .error cause) :
    scan position (c :: text) = .error { position, cause } := by
  rw [scan, scanBy, cut, if_neg (by simp [hblank])]
  split
  case h_1 hm =>
    rw [hmunch] at hm
    cases hm
    rfl
  case h_2 hm => rw [hmunch] at hm; cases hm

theorem scan_of_munch {m : Munch} (hblank : Text.isBlank c = false)
    (hmunch : munch (c :: text) = .ok m) :
    scan position (c :: text) =
      if m.kind = .hash then .ok [m.token position]
      else (scan { position with column := position.column + m.literal.length } m.rest).map
        (m.token position :: ·) := by
  rw [scan, scanBy, scanBy, cut, if_neg (by simp [hblank])]
  split
  case h_1 hm => rw [hmunch] at hm; cases hm
  case h_2 hm =>
    rw [hmunch] at hm
    cases hm
    split
    · rfl
    · dsimp only
      cases cut { position with column := position.column + m.literal.length } m.rest <;> rfl

/-- A text that can be scanned and begins with a token: it is a comment sign, or the rest can be
scanned too. -/
theorem scan_munch_cases {m : Munch} {tokens : List Token} (hblank : Text.isBlank c = false)
    (hmunch : munch (c :: text) = .ok m) (h : scan position (c :: text) = .ok tokens) :
    m.kind = .hash ∧ tokens = [m.token position] ∨
      m.kind ≠ .hash ∧ ∃ later,
        scan { position with column := position.column + m.literal.length } m.rest = .ok later ∧
          tokens = m.token position :: later := by
  rw [scan_of_munch hblank hmunch] at h
  split at h
  case isTrue hkind =>
    cases h
    exact .inl ⟨hkind, rfl⟩
  case isFalse hkind =>
    cases hlater : scan { position with column := position.column + m.literal.length } m.rest with
    | error e =>
      rw [hlater] at h
      cases h
    | ok later =>
      rw [hlater] at h
      cases h
      exact .inr ⟨hkind, later, rfl, rfl⟩

/-- A scan goes step by step: what holds of a text if it holds of what a step leaves of it holds
of all texts. -/
theorem scan_induction {motive : Position → List Char → Prop}
    (nil : ∀ position, motive position [])
    (blank : ∀ (position : Position) (c : Char) (text : List Char), Text.isBlank c = true →
      motive { position with column := position.column + 1 } text → motive position (c :: text))
    (error : ∀ (position : Position) (c : Char) (text : List Char) (cause : LexicalError.Cause),
      Text.isBlank c = false → munch (c :: text) = .error cause → motive position (c :: text))
    (munch : ∀ (position : Position) (c : Char) (text : List Char) (m : Munch),
      Text.isBlank c = false → munch (c :: text) = .ok m →
      motive { position with column := position.column + m.literal.length } m.rest →
      motive position (c :: text))
    (position : Position) (text : List Char) : motive position text := by
  induction hn : text.length using Nat.strongRecOn generalizing position text with
  | ind n ih =>
    subst hn
    cases text with
    | nil => exact nil position
    | cons c text =>
      cases hblank : Text.isBlank c with
      | true => exact blank position c text hblank (ih _ (Nat.lt_succ_self _) _ text rfl)
      | false =>
        cases hm : Scan.munch (c :: text) with
        | error cause => exact error position c text cause hblank hm
        | ok m =>
          exact munch position c text m hblank hm (ih _ (length_rest_of_munch hm) _ m.rest rfl)

end Scan

end LineScript
