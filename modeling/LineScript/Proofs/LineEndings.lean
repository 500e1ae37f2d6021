import LineScript.Proofs.LineFeeds
import LineScript.Proofs.Println
import Mathlib.Data.List.Forall2

/-!
# Line endings and margins

A text may end its lines with a line feed or with a carriage return and a line feed, and it may
indent them or not: the lines that are read are the same. They are the pieces that the line feeds
end, each without the blanks around it, and a carriage return in front of a line feed is one of
these blanks (`Text.map_trim_records`). So a script does the same with either kind of line end,
and also if it is written down again line by line (`Text.lines_regardless_of_endings`).
-/

namespace LineScript

namespace Text

variable {text piece record last : List Char} {ended : List (List Char)} {c : Char}

/-! ## Pieces -/

/-- The line feeds of the text end these pieces, and no line feed ends the last. -/
structure Ended (text : List Char) (ended : List (List Char)) (last : List Char) : Prop where
  text_eq : text = (ended.flatMap fun piece => piece ++ ['\n']) ++ last
  ended_unbroken : ∀ piece ∈ ended, '\n' ∉ piece
  last_unbroken : '\n' ∉ last

/-- The pieces that line feeds end, and the last one unless it is empty. -/
def withLast (ended : List (List Char)) (last : List Char) : List (List Char) :=
  ended ++ if last = [] then [] else [last]

theorem exists_ended (text : List Char) : ∃ ended last, Ended text ended last := by
  induction text with
  | nil => exact ⟨[], [], rfl, by simp, by simp⟩
  | cons c rest ih =>
    obtain ⟨ended, last, rfl, hended, hlast⟩ := ih
    by_cases hc : c = '\n'
    · exact ⟨[] :: ended, last, by simp [hc], by simpa using hended, hlast⟩
    · cases ended with
      | nil => exact ⟨[], c :: last, rfl, by simp, by simp [Ne.symm hc, hlast]⟩
      | cons piece ended =>
        rw [List.forall_mem_cons] at hended
        refine ⟨(c :: piece) :: ended, last, by simp, ?_, hlast⟩
        rw [List.forall_mem_cons, List.mem_cons, not_or]
        exact ⟨⟨Ne.symm hc, hended.1⟩, hended.2⟩

theorem pieces_append (h : '\n' ∉ piece) (rest : List Char) :
    pieces (piece ++ '\n' :: rest) = piece :: pieces rest := by
  induction piece with
  | nil => rfl
  | cons c piece ih =>
    rw [List.mem_cons, not_or] at h
    rw [List.cons_append, pieces, if_neg (Ne.symm h.1), ih h.2]

theorem pieces_of_ended (h : Ended text ended last) : pieces text = withLast ended last := by
  obtain ⟨rfl, hended, hlast⟩ := h
  induction ended with
  | nil =>
    by_cases hne : last = []
    · rw [hne]
      rfl
    · simpa [withLast, hne] using pieces_of_noLineFeed hlast hne
  | cons piece ended ih =>
    rw [List.forall_mem_cons] at hended
    simp only [List.flatMap_cons, List.append_assoc, List.cons_append, List.nil_append]
    rw [pieces_append hended.1, ih hended.2]
    rfl

/-! ## Margins -/

/-- The second text is the first one without the blanks at its ends. -/
structure Trimmed (piece text : List Char) : Prop where
  blank_around : ∃ front back, piece = front ++ text ++ back ∧
    (∀ c ∈ front, isBlank c = true) ∧ ∀ c ∈ back, isBlank c = true
  first : ∀ c ∈ text.head?, isBlank c = false
  last : ∀ c ∈ text.getLast?, isBlank c = false

theorem isBlank_of_head_dropWhile (text : List Char)
    (h : c ∈ (text.dropWhile isBlank).head?) : isBlank c = false := by
  have hhead := List.head?_dropWhile_not isBlank text
  rw [Option.mem_def.mp h] at hhead
  simpa using hhead

theorem trimEnd_append (text : List Char) :
    ∃ back, text = trimEnd text ++ back ∧ ∀ c ∈ back, isBlank c = true := by
  refine ⟨(text.reverse.takeWhile isBlank).reverse, ?_, ?_⟩
  · rw [trimEnd, ← List.reverse_append, List.takeWhile_append_dropWhile, List.reverse_reverse]
  · intro c hc
    exact List.all_eq_true.mp List.all_takeWhile c (List.mem_reverse.mp hc)

theorem trimmed_trim (piece : List Char) : Trimmed piece (trim piece) := by
  obtain ⟨back, hback, hblank⟩ := trimEnd_append (piece.dropWhile isBlank)
  refine ⟨⟨piece.takeWhile isBlank, back, ?_, ?_, hblank⟩, ?_, ?_⟩
  · rw [trim, List.append_assoc, ← hback, List.takeWhile_append_dropWhile]
  · exact fun c hc => List.all_eq_true.mp List.all_takeWhile c hc
  · -- The blanks behind the text do not hide what it begins with.
    intro c hc
    apply isBlank_of_head_dropWhile piece
    rw [hback, List.head?_append, ← trim, Option.mem_def.mp hc]
    rfl
  · intro c hc
    rw [trim, trimEnd, List.getLast?_reverse] at hc
    exact isBlank_of_head_dropWhile _ hc

theorem trim_trim (piece : List Char) : trim (trim piece) = trim piece :=
  trim_of_noMargins (trimmed_trim piece).first (trimmed_trim piece).last

theorem trim_concat_of_isBlank (h : isBlank c = true) (text : List Char) :
    trim (text ++ [c]) = trim text := by
  have hdrop : (text ++ [c]).dropWhile isBlank = text.dropWhile isBlank ++ [c] ∨
      (text ++ [c]).dropWhile isBlank = [] ∧ text.dropWhile isBlank = [] := by
    rw [List.dropWhile_append]
    cases hrest : text.dropWhile isBlank with
    | nil => exact .inr ⟨by simp [h], rfl⟩
    | cons first rest => exact .inl rfl
  obtain hdrop | ⟨hdrop, hrest⟩ := hdrop
  · rw [trim, trim, hdrop, trimEnd, List.reverse_concat, List.dropWhile_cons_of_pos h]
    rfl
  · rw [trim, trim, hdrop, hrest]

/-! ## Records -/

/-- The records of a text. A line feed ends a record, and so does a carriage return in front of
a line feed, together with it. A carriage return that stands elsewhere is part of the record. -/
def records : List Char → List (List Char)
  | [] => []
  | '\r' :: '\n' :: rest => [] :: records rest
  | '\n' :: rest => [] :: records rest
  | c :: rest =>
    match records rest with
    | [] => [[c]]
    | record :: later => (c :: record) :: later

/-- A piece is a record or has a carriage return more. -/
def Returns (piece record : List Char) : Prop :=
  piece = record ∨ piece = record ++ ['\r']

theorem returns_pieces_records (text : List Char) :
    List.Forall₂ Returns (pieces text) (records text) := by
  fun_induction records text with
  | case1 => exact .nil
  | case2 rest ih => exact .cons (.inr rfl) ih
  | case3 rest ih => exact .cons (.inl rfl) ih
  | case4 c rest _ hfeed hrecords ih =>
    rw [hrecords, List.forall₂_nil_right_iff] at ih
    rw [pieces, if_neg hfeed, ih]
    exact .cons (.inl rfl) .nil
  | case5 c rest _ hfeed record later hrecords ih =>
    rw [hrecords] at ih
    obtain ⟨piece, others, hpiece, hothers, hpieces⟩ := List.forall₂_cons_right_iff.mp ih
    rw [pieces, if_neg hfeed, hpieces]
    exact .cons (hpiece.imp (congrArg (c :: ·)) (congrArg (c :: ·))) hothers

theorem not_mem_of_mem_records (text : List Char) : ∀ record ∈ records text, '\n' ∉ record := by
  have hpieces : ∀ piece ∈ pieces text, '\n' ∉ piece := fun _ h => not_mem_of_mem_pieces h
  have hreturns := returns_pieces_records text
  generalize pieces text = all at hpieces hreturns
  generalize records text = found at hreturns ⊢
  induction hreturns with
  | nil => exact List.forall_mem_nil _
  | cons hfirst _ ih =>
    rw [List.forall_mem_cons] at hpieces ⊢
    refine ⟨?_, ih hpieces.2⟩
    obtain rfl | rfl := hfirst
    · exact hpieces.1
    · exact fun hmem => hpieces.1 (List.mem_append_left _ hmem)

theorem Returns.trim_eq (h : Returns piece record) : trim piece = trim record := by
  obtain rfl | rfl := h
  · rfl
  · exact trim_concat_of_isBlank (by decide) record

theorem map_trim_records (text : List Char) : (records text).map trim = (pieces text).map trim := by
  refine List.forall₂_eq_eq_eq ▸ ?_
  rw [List.forall₂_map_left_iff, List.forall₂_map_right_iff]
  exact (returns_pieces_records text).flip.imp fun _ _ h => (Returns.trim_eq h).symm

/-! ## Other line ends -/

/-- The text with a carriage return in front of every line feed. -/
def withReturns (source : String) : String :=
  String.ofList (source.toList.flatMap fun c => if c = '\n' then ['\r', '\n'] else [c])

/-- The records of a text, with their margins. -/
def untrimmed (source : String) : List String :=
  (records source.toList).map String.ofList

/-- The text of these lines, each with a line feed behind it. -/
def ofLines (lines : List String) : String :=
  String.ofList (lines.flatMap fun line => line.toList ++ ['\n'])

theorem Ended.withReturns (h : Ended text ended last) :
    Ended (text.flatMap fun c => if c = '\n' then ['\r', '\n'] else [c])
      (ended.map fun piece => piece ++ ['\r']) last := by
  obtain ⟨rfl, hended, hlast⟩ := h
  have hpiece {piece : List Char} (h : '\n' ∉ piece) :
      (piece.flatMap fun c => if c = '\n' then ['\r', '\n'] else [c]) = piece := by
    induction piece with
    | nil => rfl
    | cons c piece ih =>
      rw [List.mem_cons, not_or] at h
      rw [List.flatMap_cons, if_neg (Ne.symm h.1), ih h.2]
      rfl
  refine ⟨?_, ?_, hlast⟩
  · rw [List.flatMap_append, hpiece hlast, List.flatMap_assoc, List.flatMap_map]
    congr 1
    refine List.flatMap_congr fun piece hmem => ?_
    rw [List.flatMap_append, hpiece (hended piece hmem)]
    simp
  · intro piece hmem
    obtain ⟨piece, hpiece, rfl⟩ := List.mem_map.mp hmem
    rw [List.mem_append, not_or]
    exact ⟨hended piece hpiece, by decide⟩

theorem lines_withReturns (source : String) : lines (withReturns source) = lines source := by
  obtain ⟨ended, last, h⟩ := exists_ended source.toList
  have htrim : trim ∘ (fun piece => piece ++ ['\r']) = trim :=
    funext (trim_concat_of_isBlank (by decide))
  have hpieces : (pieces (withReturns source).toList).map trim =
      (pieces source.toList).map trim := by
    rw [withReturns, String.toList_ofList, pieces_of_ended h, pieces_of_ended h.withReturns]
    simp only [withLast, List.map_append, List.map_map, htrim]
  have hlines := congrArg (List.map String.ofList) hpieces
  rwa [List.map_map, List.map_map] at hlines

theorem ended_ofLines {lines : List String} (h : ∀ line ∈ lines, Unbroken line) :
    Ended (ofLines lines).toList (lines.map String.toList) [] where
  text_eq := by rw [ofLines, String.toList_ofList, List.flatMap_map, List.append_nil]
  ended_unbroken := List.forall_mem_map.mpr h
  last_unbroken := List.not_mem_nil

theorem lines_ofLines {texts : List String} (h : ∀ text ∈ texts, Unbroken text) :
    lines (ofLines texts) = texts.map fun text => String.ofList (trim text.toList) := by
  rw [lines, pieces_of_ended (ended_ofLines h), withLast, if_pos rfl, List.append_nil,
    List.map_map]
  rfl

theorem lines_ofLines_lines (source : String) :
    lines (ofLines (lines source)) = lines source := by
  rw [lines_ofLines fun line hline => unbroken_of_mem_lines hline]
  refine (List.map_congr_left fun line hline => ?_).trans (List.map_id _)
  obtain ⟨piece, -, rfl⟩ := List.mem_map.mp hline
  simp [trim_trim]

theorem unbroken_of_mem_untrimmed (source : String) : ∀ line ∈ untrimmed source, Unbroken line := by
  rw [untrimmed, List.forall_mem_map]
  intro record hrecord
  exact unbroken_ofList.mpr (not_mem_of_mem_records _ record hrecord)

theorem lines_ofLines_untrimmed (source : String) :
    lines (ofLines (untrimmed source)) = lines source := by
  have hlines := congrArg (List.map String.ofList) (map_trim_records source.toList)
  rw [List.map_map, List.map_map] at hlines
  rw [lines_ofLines (unbroken_of_mem_untrimmed source), untrimmed, List.map_map]
  refine Eq.trans ?_ hlines
  exact List.map_congr_left fun record _ => by simp

/-- The lines of a text are its records without margins, that is, the pieces that its line feeds
end, with the last one unless it is empty, and without margins. So they are the same, and
interpreting the text gives the same program, the same output, errors and log, if every line feed
gets a carriage return in front of it, and if the lines, or the records with their margins, are
written down one by one with a line feed behind each. -/
theorem lines_regardless_of_endings (source : String) :
    lines source = (untrimmed source).map (fun line => String.ofList (trim line.toList)) ∧
    (∃ ended last, Ended source.toList ended last ∧
      List.Forall₂ Trimmed (withLast ended last) ((lines source).map String.toList)) ∧
    lines (withReturns source) = lines source ∧
    lines (ofLines (lines source)) = lines source ∧
    lines (ofLines (untrimmed source)) = lines source ∧
    ∀ {σ : Type} (out : Sink σ) (sink : σ),
      interpret out sink (withReturns source) = interpret out sink source ∧
      interpret out sink (ofLines (lines source)) = interpret out sink source ∧
      interpret out sink (ofLines (untrimmed source)) = interpret out sink source := by
  have hreturns := lines_withReturns source
  have hlines := lines_ofLines_lines source
  have hrecords := lines_ofLines_untrimmed source
  refine ⟨?_, ?_, hreturns, hlines, hrecords, ?_⟩
  · rw [← hrecords]
    exact lines_ofLines (unbroken_of_mem_untrimmed source)
  · obtain ⟨ended, last, h⟩ := exists_ended source.toList
    refine ⟨ended, last, h, ?_⟩
    rw [lines, pieces_of_ended h, List.map_map, List.forall₂_map_right_iff, List.forall₂_same]
    intro piece _
    simpa using trimmed_trim piece
  · intro σ out sink
    simp only [interpret, hreturns, hlines, hrecords, and_self]

end Text

end LineScript
