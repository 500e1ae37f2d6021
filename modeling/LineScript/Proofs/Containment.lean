import Mathlib.Data.List.InsertIdx
import LineScript.Proofs.Layout
import LineScript.Proofs.Reading.Marks

/-!
# Errors that stay on their line

An error on a line without braces costs that line and nothing else, unless it gives a
block up. A statement that fails is dropped up to the end of its line, so that no second
error is found there (`Walk.exists_passes_line`). What it has declared by then is seen
from the beginning of the line: a keyword, a name and a type word declare the name, also
if the first value fails, and nothing else does (`Heading.kept?`). If the line is cut off
behind this heading, or emptied if there is none, the program is read as before, but for
the error and the null statement that it left.
-/

namespace LineScript

/-! ## Lines without braces -/

/-- Tokens of one line that open and close no block, in front of the end of the line. -/
structure Token.PlainLine (tokens : List Token) : Prop where
  goesOn : ∀ token ∈ tokens, token.kind ≠ .endOfInput
  inLine : ∀ token ∈ tokens, token.kind ≠ .newline
  braceless : ∀ token ∈ tokens, token.kind ≠ .leftBrace ∧ token.kind ≠ .rightBrace
  hash_last : ∀ token ∈ tokens.dropLast, token.kind ≠ .hash

namespace Token.PlainLine

variable {tokens later : List Token} {first : Token}

theorem of_append (taken : List Token) (h : PlainLine (taken ++ later)) : PlainLine later where
  goesOn token htoken := h.goesOn token (List.mem_append_right taken htoken)
  inLine token htoken := h.inLine token (List.mem_append_right taken htoken)
  braceless token htoken := h.braceless token (List.mem_append_right taken htoken)
  hash_last token htoken := by
    cases later with
    | nil => cases htoken
    | cons next later =>
      refine h.hash_last token ?_
      rw [List.dropLast_append_cons]
      exact List.mem_append_right taken htoken

/-- Nothing stands behind a comment. -/
theorem eq_nil_of_hash (h : PlainLine (first :: later)) (hhash : first.kind = .hash) :
    later = [] := by
  cases later with
  | nil => rfl
  | cons next later => exact absurd hhash (h.hash_last first (by simp))

theorem startsLeaf (h : PlainLine (first :: later)) (hhash : first.kind ≠ .hash) :
    first.StartsLeaf :=
  ⟨h.inLine first List.mem_cons_self, hhash, h.goesOn first List.mem_cons_self,
    h.braceless first List.mem_cons_self⟩

/-- A failed statement is dropped up to the end of its line. -/
theorem resync_eq (h : PlainLine tokens) {newline : Token} (hnewline : newline.kind = .newline)
    (nested : Bool) (rest : List Token) :
    Recovery.resync nested (tokens ++ newline :: rest) = rest := by
  induction tokens with
  | nil => simp only [List.nil_append, Recovery.resync, hnewline]
  | cons token tokens ih =>
    have hbrace := (h.braceless token List.mem_cons_self).2
    rw [List.cons_append, Recovery.resync_of_dropped (h.goesOn token List.mem_cons_self)
      (h.inLine token List.mem_cons_self) fun hright => hbrace hright.1]
    exact ih (of_append [token] h)

end Token.PlainLine

namespace Walk

variable {w v : Walk} {tokens rest taken : List Token} {newline : Token} {e : SyntaxError}

theorem Passes.trans {u : Walk} {later : List Token} (h : w.Passes tokens v)
    (h' : v.Passes later u) : w.Passes (tokens ++ later) u := by
  intro stop behind
  rw [List.append_assoc, h, h']

theorem passes_blank {token : Token} (hmode : w.mode = .reading)
    (h : token.kind = .newline ∨ token.kind = .hash) : w.Passes [token] w :=
  fun _ _ => run_of_step (step_of_blank hmode h)

theorem passes_line_of_skipping {depth : Nat} (hmode : w.mode = .skipping depth)
    (hplain : Token.PlainLine tokens) (hnewline : newline.kind = .newline) :
    w.Passes (tokens ++ [newline]) w := by
  refine passes_of_skipping hmode fun token htoken => ?_
  obtain htoken | htoken := List.mem_append.mp htoken
  · exact ⟨hplain.goesOn token htoken, hplain.braceless token htoken⟩
  · simp [List.mem_singleton.mp htoken, hnewline]

section statement

variable {stop : Position} {first : Token} {b : Arena} {look : Option Token} {left : List Token}

/-- A line that is divided is divided in front of its end, or behind it. -/
theorem eq_nil_or_exists_more (h : rest ++ [newline] = taken ++ left) :
    (left = [] ∧ taken = rest ++ [newline]) ∨
      ∃ more, rest = taken ++ more ∧ left = more ++ [newline] := by
  obtain rfl | ⟨more, last, rfl⟩ := List.eq_nil_or_concat left
  · exact .inl ⟨rfl, by rw [h, List.append_nil]⟩
  · rw [List.concat_eq_append, ← List.append_assoc] at h
    obtain ⟨hrest, hlast⟩ := List.append_inj' h rfl
    cases hlast
    exact .inr ⟨more, hrest, List.concat_eq_append⟩

/-- A statement fails in front of the end of its line, or at it. -/
theorem exists_more_of_error {site : Site} {a : Arena} (hnewline : newline.kind = .newline)
    (hline : rest ++ [newline] = taken ++ left)
    (hturn : Statement.LeafTurn site a first taken look (.error e) b) :
    ∃ next more, look = some next ∧ rest = taken ++ more ∧ left = more ++ [newline] := by
  obtain ⟨next, rfl⟩ := Option.isSome_iff_exists.mp (hturn.failed rfl).1
  obtain ⟨-, rfl⟩ | ⟨more, hrest, hleft⟩ := eq_nil_or_exists_more hline
  · exact absurd hnewline (Token.oneLine_concat.mp hturn.oneLine newline List.mem_concat_self)
  · exact ⟨next, more, rfl, hrest, hleft⟩

variable (hmode : w.mode = .reading) (hleaf : first.StartsLeaf)
variable (hplain : Token.PlainLine (first :: rest)) (hnewline : newline.kind = .newline)
variable (hline : rest ++ [newline] = taken ++ left)
variable (hlook : ∀ next ∈ look, Token.frontOf stop left = next)

include hmode hleaf hplain hnewline hline hlook

/-- Behind a statement that was read, a line has at most a comment. -/
theorem passes_line_of_ok {statement : Statement}
    (hturn : Statement.LeafTurn (w.site stop) w.arena first taken look (.ok statement) b) :
    w.Passes (first :: (taken ++ left)) (add (.leaf statement) { w with arena := b }) := by
  have hmove := moves_of_ok hleaf hmode hturn
  have hmode' : (add (.leaf statement) { w with arena := b }).mode = .reading := hmode
  have hend : Passes _ [newline] (add (.leaf statement) { w with arena := b }) :=
    passes_blank hmode' (.inl hnewline)
  have inLine : ∀ token ∈ rest, token.kind ≠ .newline :=
    fun token htoken => hplain.inLine token (List.mem_cons_of_mem first htoken)
  obtain ⟨rfl, rfl⟩ | ⟨more, rfl, rfl⟩ := eq_nil_or_exists_more hline
  · refine hmove.passes ?_ fun _ _ => rfl
    rintro next ⟨⟩
    exact absurd hnewline (Token.oneLine_concat.mp hturn.oneLine newline List.mem_concat_self)
  · cases look with
    | none =>
      obtain ⟨last, hlast, hkind⟩ := hturn.lined rfl
      exact absurd hkind (inLine last (List.mem_append_left more (List.mem_of_getLast? hlast)))
    | some next =>
      have hnext := hlook next rfl
      have hends := hturn.ended rfl rfl
      -- What the statement ends in front of is no brace, so it is a comment.
      cases more with
      | nil =>
        rw [List.nil_append, Token.frontOf_cons] at hnext
        simp [← hnext, hnewline] at hends
      | cons next' more =>
        rw [List.cons_append, Token.frontOf_cons] at hnext
        subst hnext
        have hnext' : Token.PlainLine (next' :: more) := .of_append (first :: taken) hplain
        obtain hinput | hright | hhash := hends
        · exact absurd hinput (hnext'.goesOn next' List.mem_cons_self)
        · exact absurd hright (hnext'.braceless next' List.mem_cons_self).2
        · obtain rfl := hnext'.eq_nil_of_hash hhash
          exact hmove.passes (by simp) ((passes_blank hmode' (.inr hhash)).trans hend)

/-- A statement that fails leaves a mark, and the rest of its line is dropped. -/
theorem passes_line_of_goes
    (hturn : Statement.LeafTurn (w.site stop) w.arena first taken look (.error e) b)
    (hgoes : e.abortsBlock = false) :
    w.Passes (first :: (taken ++ left)) (fail e { w with arena := b }) := by
  obtain ⟨next, more, rfl, rfl, rfl⟩ := exists_more_of_error hnewline hline hturn
  have hmore : Token.PlainLine more := .of_append (first :: taken) hplain
  intro stop' behind
  have hfront : Token.frontOf stop' (more ++ newline :: behind) = next := by
    rw [← hlook next rfl]
    cases more <;> rfl
  obtain ⟨hgives, harena⟩ := hturn.gives stop' (more ++ newline :: behind) (by simpa using hfront)
  have hrest := hgives.rest_eq
  simp only [Walk.site] at hgives harena hrest
  have hstep : w.step stop' (first :: (taken ++ (more ++ newline :: behind))) =
      some (fail e { w with arena := b }, behind) := by
    rw [step_of_startsLeaf hmode hleaf, take_of_error hgives.outcome_eq, giveUp_of_goes hgoes]
    simp only [Walk.site, harena, hrest]
    exact congrArg (fun left => some (_, left)) (hmore.resync_eq hnewline _ behind)
  have hrun := run_of_step hstep
  simpa using hrun

/-- A malformed declaration leaves a mark, and the rest of its line is dropped. -/
theorem passes_line_of_aborts
    (hturn : Statement.LeafTurn (w.site stop) w.arena first taken look (.error e) b)
    (haborts : e.abortsBlock = true) :
    w.Passes (first :: (taken ++ left))
      { fail e { w with arena := b } with mode := .skipping 0 } := by
  obtain ⟨next, more, rfl, rfl, rfl⟩ := exists_more_of_error hnewline hline hturn
  have hmore : Token.PlainLine more := .of_append (first :: taken) hplain
  refine (moves_of_aborts hleaf hmode hturn haborts).passes ?_
    (passes_line_of_skipping rfl hmore hnewline)
  rintro _ ⟨⟩
  rw [← hlook next rfl]
  cases more <;> rfl

end statement

/-- On a line without braces a walk finds one error at most. If the statement that the
line begins with fails, and no block is given up, a mark is left and the rest of the
line is dropped. -/
theorem exists_passes_line (w : Walk) (stop : Position) (hplain : Token.PlainLine tokens)
    (hnewline : newline.kind = .newline) :
    ∃ v, w.Passes (tokens ++ [newline]) v ∧
      (v.errors = w.errors ∨
        ∃ first rest e, tokens = first :: rest ∧ w.mode = .reading ∧ first.StartsLeaf ∧
          v.errors = w.errors ++ [e] ∧
          let r := Statement.read (w.site stop) w.arena first (rest ++ [newline])
          (e.abortsBlock = false →
            r.outcome = .error e ∧ v = fail e { w with arena := r.arena })) := by
  obtain ⟨depth, hmode⟩ | hmode : (∃ depth, w.mode = .skipping depth) ∨ w.mode = .reading := by
    cases w.mode <;> simp
  · exact ⟨w, passes_line_of_skipping hmode hplain hnewline, .inl rfl⟩
  have hend : w.Passes [newline] w := passes_blank hmode (.inl hnewline)
  cases tokens with
  | nil => exact ⟨w, hend, .inl rfl⟩
  | cons first rest =>
    by_cases hhash : first.kind = .hash
    · obtain rfl := hplain.eq_nil_of_hash hhash
      exact ⟨w, (passes_blank hmode (.inr hhash)).trans hend, .inl rfl⟩
    have hleaf := hplain.startsLeaf hhash
    obtain ⟨taken, left, look, outcome, b, hline, hlook, hturn⟩ :=
      Statement.exists_leafTurn hleaf (w.site stop) w.arena stop (rest ++ [newline])
    rw [List.cons_append, hline]
    cases outcome with
    | ok statement =>
      exact ⟨_, passes_line_of_ok hmode hleaf hplain hnewline hline hlook hturn, .inl rfl⟩
    | error e =>
      obtain ⟨hgives, harena⟩ := hturn.gives stop left hlook
      cases haborts : e.abortsBlock with
      | true =>
        refine ⟨_, passes_line_of_aborts hmode hleaf hplain hnewline hline hlook hturn haborts,
          .inr ⟨first, rest, e, rfl, hmode, hleaf, rfl, ?_⟩⟩
        rw [haborts]
        exact nofun
      | false =>
        refine ⟨_, passes_line_of_goes hmode hleaf hplain hnewline hline hlook hturn haborts,
          .inr ⟨first, rest, e, rfl, hmode, hleaf, rfl, fun _ => ?_⟩⟩
        rw [← hline] at hgives harena
        exact ⟨hgives.outcome_eq, congrArg (fun arena => fail e { w with arena }) harena.symm⟩

end Walk

/-! ## Headings -/

/-- The beginning of a declaration: its keyword, its name and its type word. -/
structure Heading where
  keyword : Token
  name : Token
  type : Token
  kind : Kind

namespace Heading

open Statement

def ofTokens? : List Token → Option Heading
  | keyword :: name :: type :: _ =>
    if keyword.kind = .keyword .var ∧ name.kind = .identifier then
      (typeWord? type.kind).map fun kind => { keyword, name, type, kind }
    else none
  | _ => none

/-- What is kept of a line with this error: its heading, unless the name was taken. -/
def kept? (e : SyntaxError) (tokens : List Token) : Option Heading :=
  match e.cause with
  | .redeclaration _ => none
  | _ => ofTokens? tokens

/-- The line, cut off behind the heading that is kept, or emptied. -/
def cut (text : String) : Option Heading → String
  | some heading =>
    String.ofList
      (text.toList.take (heading.type.position.column + heading.type.literal.length - 1))
  | none => ""

/-- The declaration without a first value. -/
def statement (heading : Heading) (symbol : SymbolId) : Statement :=
  .declare heading.keyword.position heading.name.literal symbol heading.kind none

def tokens (heading : Heading) : List Token :=
  [heading.keyword, heading.name, heading.type]

variable {tokens rest : List Token} {heading : Heading} {e : SyntaxError}

theorem ofTokens?_eq_some_iff :
    ofTokens? tokens = some heading ↔
      heading.keyword.kind = .keyword .var ∧ heading.name.kind = .identifier ∧
        typeWord? heading.type.kind = some heading.kind ∧
        ∃ rest, tokens = heading.keyword :: heading.name :: heading.type :: rest := by
  constructor
  · intro h
    unfold ofTokens? at h
    split at h
    case h_1 keyword name type rest =>
      split at h
      case isTrue hkinds =>
        obtain ⟨kind, hkind, rfl⟩ := Option.map_eq_some_iff.mp h
        exact ⟨hkinds.1, hkinds.2, hkind, rest, rfl⟩
      case isFalse => cases h
    case h_2 => cases h
  · rintro ⟨hkeyword, hname, htype, rest, rfl⟩
    simp only [ofTokens?, hkeyword, hname, and_self, if_true, htype, Option.map_some]

theorem ofTokens?_of_kept? (h : kept? e tokens = some heading) :
    ofTokens? tokens = some heading := by
  unfold kept? at h
  split at h
  · cases h
  · exact h

/-- A line that is cut off has the tokens of the heading, or none. -/
theorem ofLine_cut {line : Nat} {text : String} {kept : Option Heading}
    (htokens : Token.ofLine line text = .ok tokens)
    (hkept : ∀ heading ∈ kept, ofTokens? tokens = some heading) :
    Token.ofLine line (cut text kept) = .ok (kept.toList.flatMap Heading.tokens) := by
  cases kept with
  | none => exact Scan.scan_of_cuts .done
  | some heading =>
    obtain ⟨-, -, -, more, rfl⟩ := ofTokens?_eq_some_iff.mp (hkept heading rfl)
    have hcuts := (Scan.cuts_of_scan htokens).take
      (show _ = [heading.keyword, heading.name] ++ heading.type :: more from rfl)
    refine Scan.scan_of_cuts ?_
    rw [cut, String.toList_ofList]
    exact hcuts

/-! ## What a failed statement has declared -/

section arena

variable {site : Site} {a : Arena} {stop : Position} {first name type newline : Token} {kind : Kind}

/-- Where a statement may not end it fails, but not as a declaration. -/
theorem minor_of_finish {before : List Token} {r : StatementReading before}
    (h : r.finish.outcome = .error e) : r.outcome = .error e ∨ e.declaresNothing = false := by
  unfold StatementReading.finish at h
  split at h
  case h_1 =>
    split at h
    case h_5 =>
      cases h
      exact .inr rfl
    all_goals cases h
  case h_2 => exact .inl h

theorem readUnfinished_of_var (h : first.kind = .keyword .var) :
    readUnfinished site a first tokens = readDeclare site a first.position tokens := by
  simp only [readUnfinished, h]

/-- A declaration of a new name can only fail at its first value and at its end. -/
theorem minor_of_free (hfirst : first.kind = .keyword .var) (hname : name.kind = .identifier)
    (htype : typeWord? type.kind = some kind)
    (hfree : ∀ id, a.getLocal site.table name.literal ≠ .ok (some id))
    (hread : (readUnfinished { site with stop } a first (name :: type :: rest)).finish.outcome =
      .error e) : e.declaresNothing = false := by
  obtain herror | hminor := minor_of_finish hread
  case inr => exact hminor
  case inl =>
    rw [readUnfinished_of_var hfirst, readDeclare_of_free hname htype hfree] at herror
    obtain ⟨taken, left, outcome, rfl, hanswers⟩ :=
      foresees_initial (a.resolve? site.table) kind stop rest
    have hgives := (hanswers.gives stop left rfl).outcome_eq
    simp only [StatementReading.plain_outcome, Reading.behind, Reading.within, Reading.map,
      hgives] at herror
    cases outcome with
    | ok tree => cases herror
    | error e' =>
      cases herror
      exact (hanswers.minor rfl).minor

/-- A heading without a first value behind it declares its name. -/
theorem gives_statement (site : Site) (stop : Position) (hheading : ofTokens? tokens = some heading)
    (hfree : ∀ id, a.getLocal site.table heading.name.literal ≠ .ok (some id))
    (hvalue : (Token.frontOf stop rest).kind ≠ .equals) :
    let declared := a.declare site.table (.declared heading.name.literal heading.kind)
    let r := readUnfinished { site with stop } a heading.keyword
      (heading.name :: heading.type :: rest)
    r.Gives (.ok (heading.statement declared.1)) rest ∧ r.arena = declared.2 := by
  intro declared r
  obtain ⟨hkeyword, hname, htype, -⟩ := ofTokens?_eq_some_iff.mp hheading
  obtain ⟨houtcome, hrest⟩ : (initialReader (a.resolve? site.table) heading.kind stop rest).Gives
      (.ok none) rest := initialReader_of_none hvalue
  simp only [r, readUnfinished_of_var hkeyword, readDeclare_of_free hname htype hfree]
  refine ⟨⟨?_, hrest⟩, rfl⟩
  simp only [StatementReading.plain_outcome, Reading.behind, Reading.within, Reading.map, houtcome]
  rfl

section failed

variable (site) (hnewline : newline.kind = .newline)
variable (hread : (readUnfinished { site with stop } a first (rest ++ [newline])).finish.outcome =
  .error e)

include hread

/-- A heading that is kept has declared its name. -/
theorem arena_of_kept (hkept : kept? e (first :: rest) = some heading) :
    (∀ id, a.getLocal site.table heading.name.literal ≠ .ok (some id)) ∧
      (readUnfinished { site with stop } a first (rest ++ [newline])).arena =
        (a.declare site.table (.declared heading.name.literal heading.kind)).2 := by
  obtain ⟨hkeyword, hname, htype, more, htokens⟩ :=
    ofTokens?_eq_some_iff.mp (ofTokens?_of_kept? hkept)
  obtain ⟨rfl, rfl⟩ := List.cons.inj htokens
  have hfree : ∀ id, a.getLocal site.table heading.name.literal ≠ .ok (some id) := by
    intro id hbound
    have hfails : (readUnfinished { site with stop } a heading.keyword
        (heading.name :: heading.type :: (more ++ [newline]))).Gives
          (.error (.redeclared heading.name)) (more ++ [newline]) := by
      rw [readUnfinished_of_var hkeyword, readDeclare_of_bound hname htype hbound]
      exact ⟨rfl, rfl⟩
    have hredeclared := (finish_of_error hfails).outcome_eq
    simp only [List.cons_append] at hread
    rw [hread] at hredeclared
    cases hredeclared
    cases hkept
  refine ⟨hfree, ?_⟩
  rw [readUnfinished_of_var hkeyword]
  simp only [List.cons_append, readDeclare_of_free hname htype hfree]
  rfl

include hnewline

/-- Without a heading to keep nothing is declared. -/
theorem arena_of_nothing_kept (hkept : kept? e (first :: rest) = none) :
    (readUnfinished { site with stop } a first (rest ++ [newline])).arena = a := by
  by_cases hvar : first.kind = .keyword .var
  case neg =>
    unfold readUnfinished
    split
    case h_1 => contradiction
    all_goals rfl
  case pos =>
    obtain ⟨name, type, more, kind, hmore, hname, htype, hfree⟩ | ⟨_, -, hsame⟩ :=
      readDeclare_free_or_error { site with stop } a first.position (rest ++ [newline])
    · obtain ⟨-, hend⟩ | ⟨more, rfl, -⟩ :=
        Walk.eq_nil_or_exists_more (show _ = [name, type] ++ more from hmore)
      · -- The end of the line is neither a name nor a type word.
        have hmem : newline ∈ [name, type] := hend ▸ List.mem_concat_self
        obtain rfl | rfl : newline = name ∨ newline = type := by simpa using hmem
        · cases hnewline.symm.trans hname
        · rw [hnewline] at htype
          cases htype
      · have hminor := minor_of_free hvar hname htype hfree hread
        have hheading : ofTokens? (first :: name :: type :: more) =
            some { keyword := first, name, type, kind } :=
          ofTokens?_eq_some_iff.mpr ⟨hvar, hname, htype, more, rfl⟩
        unfold kept? at hkept
        split at hkept
        case h_1 hcause => simp [SyntaxError.declaresNothing, hcause] at hminor
        case h_2 => cases hheading.symm.trans hkept
    · rw [readUnfinished_of_var hvar, hsame]

end failed

end arena

end Heading

/-! ## Mended lines -/

namespace Walk

variable {w : Walk} {stop : Position} {e : SyntaxError} {first newline : Token} {rest : List Token}
variable {heading : Heading}

/-- A heading with a line end behind it is a declaration. -/
theorem passes_heading {tokens : List Token} (hmode : w.mode = .reading)
    (hheading : Heading.ofTokens? tokens = some heading)
    (hfree : ∀ id, w.arena.getLocal w.block.table heading.name.literal ≠ .ok (some id))
    (hnewline : newline.kind = .newline) :
    let declared := w.arena.declare w.block.table (.declared heading.name.literal heading.kind)
    w.Passes (heading.tokens ++ [newline])
      (w.mended [heading.statement declared.1] declared.2) := by
  intro declared stop behind
  obtain ⟨hkeyword, hname, htype, -⟩ := Heading.ofTokens?_eq_some_iff.mp hheading
  have hleaf : heading.keyword.StartsLeaf := by simp [Token.StartsLeaf, hkeyword]
  have hvalue : (Token.frontOf stop (newline :: behind)).kind ≠ .equals := by simp [hnewline]
  obtain ⟨hgives, harena⟩ := Heading.gives_statement (w.site stop) stop hheading hfree hvalue
  obtain ⟨hread, hdeclared⟩ :=
    Statement.read_gives hleaf (Statement.finish_of_ends hgives (.line hnewline)) harena
  have hrest := hread.rest_eq
  have hstep : w.step stop
      (heading.keyword :: heading.name :: heading.type :: newline :: behind) = some (w.take ..) :=
    step_of_startsLeaf hmode hleaf
  rw [take_of_ok hread.outcome_eq] at hstep
  simp only [Walk.site] at hdeclared hrest hstep
  rw [hdeclared, hrest] at hstep
  exact run_of_step hstep

/-- What is kept of a line is read as a declaration, or as nothing, and leaves the arena as
the whole line does. -/
theorem exists_passes_kept {line : Nat} {text : String} (hmode : w.mode = .reading)
    (hleaf : first.StartsLeaf) (htokens : Token.ofLine line text = .ok (first :: rest))
    (hnewline : newline.kind = .newline) :
    let r := Statement.read (w.site stop) w.arena first (rest ++ [newline])
    let kept := Heading.kept? e (first :: rest)
    r.outcome = .error e → ∃ symbol,
      w.Passes (Cursor.lineTokens line (Heading.cut text kept))
        (w.mended (kept.toList.map fun heading => heading.statement symbol) r.arena) := by
  intro r kept hread
  have harena : r.arena = (Statement.readUnfinished (w.site stop) w.arena first
      (rest ++ [newline])).arena := by
    simp only [r, Statement.read_eq_readUnfinished hleaf, StatementReading.announce_arena,
      StatementReading.finish_arena]
  have hfailed : (Statement.readUnfinished (w.site stop) w.arena first
      (rest ++ [newline])).finish.outcome = .error e := by
    simp only [r, Statement.read_eq_readUnfinished hleaf] at hread
    exact hread
  have hcut : Token.ofLine line (Heading.cut text kept) = _ :=
    Heading.ofLine_cut htokens fun _ => Heading.ofTokens?_of_kept?
  rw [Cursor.lineTokens_of_ok hcut]
  cases hkept : kept with
  | none =>
    have hsame := Heading.arena_of_nothing_kept (w.site stop) hnewline hfailed hkept
    rw [harena.trans hsame]
    refine ⟨⟨0⟩, ?_⟩
    simp only [Option.toList_none, List.map_nil, mended_nil]
    exact passes_blank hmode (.inl rfl)
  | some heading =>
    obtain ⟨hfree, hdeclared⟩ := Heading.arena_of_kept (w.site stop) hfailed hkept
    let declared := w.arena.declare w.block.table (.declared heading.name.literal heading.kind)
    refine ⟨declared.1, ?_⟩
    rw [harena.trans hdeclared]
    exact passes_heading hmode (Heading.ofTokens?_of_kept? hkept) hfree rfl

end Walk

/-! ## Programs -/

theorem Token.plainLine_of_ofLine {line : Nat} {text : String} {tokens : List Token}
    (h : Token.ofLine line text = .ok tokens)
    (hbraces : ∀ token ∈ tokens, token.kind ≠ .leftBrace ∧ token.kind ≠ .rightBrace) :
    Token.PlainLine tokens where
  goesOn token htoken := (Scan.scanned_of_scan h token htoken).regular.goesOn
  inLine token htoken hnewline := by
    have hdefinitions : ∀ d ∈ Lexicon.definitions, d.kind ≠ .newline := by decide
    obtain ⟨d, hd, -, hkind⟩ := (Scan.scanned_of_scan h token htoken).exists_definition
      (by simp [hnewline])
    exact hdefinitions d hd (hkind.trans hnewline)
  braceless := hbraces
  hash_last := (Scan.cuts_of_scan h).hash_last

/-- Only the last line says where the input ends. -/
theorem Cursor.closing_ofLines_congr {before after : List String} (text text' : String)
    (h : after ≠ []) :
    (ofLines (before ++ text :: after)).1.closing =
      (ofLines (before ++ text' :: after)).1.closing := by
  obtain rfl | ⟨middle, last, rfl⟩ := List.eq_nil_or_concat after
  · exact absurd rfl h
  · have hlast (text : String) : before ++ text :: middle.concat last =
        before ++ text :: middle ++ [last] := by simp
    rw [hlast, hlast, closing_ofLines_concat, closing_ofLines_concat]
    simp

/-- An entry of a list stands in the middle part if neither the first nor the last part
has an entry of that kind. -/
theorem exists_index_of_middle {α : Type} {P : α → Prop} {first middle last : List α} {n : Nat}
    {x : α} (h : (first ++ middle ++ last)[n]? = some x) (hx : P x)
    (hfirst : ∀ y ∈ first, ¬ P y) (hlast : ∀ y ∈ last, ¬ P y) :
    ∃ k, n = first.length + k ∧ middle[k]? = some x := by
  rw [List.append_assoc, List.getElem?_append] at h
  split at h
  case isTrue => exact absurd hx (hfirst x (List.mem_of_getElem? h))
  case isFalse hn =>
    refine ⟨n - first.length, by omega, ?_⟩
    rw [List.getElem?_append] at h
    split at h
    case isTrue => exact h
    case isFalse => exact absurd hx (hlast x (List.mem_of_getElem? h))

/-- A walk over lines reports its errors on these lines. -/
theorem Walk.exists_passes_lines (lines : List String) :
    ∃ w, Walk.start.Passes (Cursor.tokensFrom 1 lines) w ∧ w.Marked ∧
      ∀ e ∈ w.errors, e.position.line ≤ lines.length := by
  obtain ⟨w, hpasses, hsince, hmarked⟩ :=
    Walk.Marked.start.exists_passes (Cursor.wholeLines_tokensFrom 1 lines)
  refine ⟨w, hpasses, hmarked, ?_⟩
  obtain ⟨found, hfound, hat⟩ := hsince.errors
  intro e he
  rw [hfound] at he
  obtain ⟨token, htoken, hposition⟩ := hat e he
  obtain ⟨hfirst, _, hline, -⟩ := Cursor.position_tokensFrom htoken
  have hlast := (List.getElem?_eq_some_iff.mp hline).1
  rw [hposition]
  omega

section line

variable {before after : List String} {text : String} {tokens : List Token} {n : Nat}
variable {e : SyntaxError}

theorem Walk.run_lines {w v : Walk} (hpasses : start.Passes (Cursor.tokensFrom 1 before) w)
    (hpassed : w.Passes (Cursor.lineTokens (before.length + 1) text) v) (stop : Position) :
    start.run stop (Cursor.tokensFrom 1 (before ++ text :: after)) =
      v.run stop (Cursor.tokensFrom (before.length + 2) after) := by
  rw [Cursor.tokensFrom_append, Cursor.tokensFrom_cons, Nat.add_comm 1, hpasses, hpassed]

theorem Program.scanned_cut (hscanned : (Cursor.ofLines (before ++ text :: after)).2 = [])
    (htokens : Token.ofLine (before.length + 1) text = .ok tokens) :
    (Cursor.ofLines (before ++ Heading.cut text (Heading.kept? e tokens) :: after)).2 = [] := by
  rw [Cursor.errors_ofLines, Cursor.errorsFrom_eq_nil_iff, List.forall_mem_append,
    List.forall_mem_cons] at hscanned ⊢
  obtain ⟨hbefore, -, hafter⟩ := hscanned
  refine ⟨hbefore, ?_, hafter⟩
  have hcut := Heading.ofLine_cut htokens fun _ => Heading.ofTokens?_of_kept? (e := e)
  exact Cursor.lineError?_eq_none_of_eq_none (Cursor.lineError?_eq_none_iff.mpr ⟨_, hcut⟩)

/-- The statement that a line begins with is the only one on the line that can fail. -/
theorem Walk.exists_line_error {stop : Position} (hstop : before.length + 2 ≤ stop.line)
    (htokens : Token.ofLine (before.length + 1) text = .ok tokens)
    (hbraces : ∀ token ∈ tokens, token.kind ≠ .leftBrace ∧ token.kind ≠ .rightBrace) :
    let errors := (start.run stop (Cursor.tokensFrom 1 (before ++ text :: after))).errors
    errors[n]? = some e → e.position.line = before.length + 1 → e.abortsBlock = false →
      (∀ m e', errors[m]? = some e' → e'.position.line = before.length + 1 → m = n) ∧
      ∃ w first rest, start.Passes (Cursor.tokensFrom 1 before) w ∧ w.Marked ∧
        w.mode = .reading ∧ w.errors.length = n ∧ tokens = first :: rest ∧ first.StartsLeaf ∧
        let newline := Cursor.newlineOf (before.length + 1) text
        let r := Statement.read (w.site stop) w.arena first (rest ++ [newline])
        r.outcome = .error e ∧ w.Passes (Cursor.lineTokens (before.length + 1) text)
          (fail e { w with arena := r.arena }) := by
  intro errors herror hline hgoes
  obtain ⟨w, hpasses, hmarked, hbefore⟩ := Walk.exists_passes_lines before
  have hplain := Token.plainLine_of_ofLine htokens hbraces
  obtain ⟨v, hpassed, hturn⟩ := w.exists_passes_line stop hplain
    (show (Cursor.newlineOf (before.length + 1) text).kind = .newline from rfl)
  rw [← Cursor.lineTokens_of_ok htokens] at hpassed
  obtain ⟨later, hlater, hbehind⟩ := v.errors_run_tokensFrom after hstop
  have herrors : errors = v.errors ++ later := by
    rw [← hlater, ← Walk.run_lines hpasses hpassed]
  have located (found : List SyntaxError) (hfound : v.errors = w.errors ++ found) {m : Nat}
      {e' : SyntaxError} (h : errors[m]? = some e') (hline : e'.position.line = before.length + 1) :
      ∃ k, m = w.errors.length + k ∧ found[k]? = some e' := by
    rw [herrors, hfound] at h
    refine exists_index_of_middle (P := fun e => e.position.line = before.length + 1) h hline
      (fun e he => ?_) (fun e he => ?_)
    · have := hbefore e he
      omega
    · have := hbehind e he
      omega
  obtain hnone | ⟨first, rest, e', rfl, hmode, hleaf, hfound, hread⟩ := hturn
  · obtain ⟨k, -, hk⟩ := located [] (by simp [hnone]) herror hline
    cases hk
  · have single {m : Nat} {e'' : SyntaxError} (h : errors[m]? = some e'')
        (hline : e''.position.line = before.length + 1) : m = w.errors.length ∧ e' = e'' := by
      obtain ⟨k, rfl, hk⟩ := located [e'] hfound h hline
      simpa [List.getElem?_singleton] using hk
    obtain ⟨hn, rfl⟩ := single herror hline
    obtain ⟨houtcome, rfl⟩ := hread hgoes
    refine ⟨fun m e' h hline => (single h hline).1.trans hn.symm, ?_⟩
    exact ⟨w, first, rest, hpasses, hmarked, hmode, hn.symm, rfl, hleaf, houtcome, hpassed⟩

end line

namespace Program

/-- An error on a line without braces does not reach other lines, unless it gives a block
up. It is the only error of its line. If the line is cut off behind the heading that is
kept of it, or emptied, the error is missing in the list, the declaration or nothing
stands in the place of the null statement, and everything else is as it was. -/
theorem parse_contained {before after : List String} {text : String} {tokens : List Token}
    {n : Nat} {e : SyntaxError} (hscanned : (Cursor.ofLines (before ++ text :: after)).2 = [])
    (hafter : after ≠ []) (htokens : Token.ofLine (before.length + 1) text = .ok tokens)
    (hbraces : ∀ token ∈ tokens, token.kind ≠ .leftBrace ∧ token.kind ≠ .rightBrace)
    (herror : (parse (before ++ text :: after)).errors[n]? = some (.grammar e))
    (hline : e.position.line = before.length + 1)
    (hcause : ∀ flaw, e.cause ≠ .malformedDeclaration flaw) :
    let kept := Heading.kept? e tokens
    let p := parse (before ++ text :: after)
    let q := parse (before ++ Heading.cut text kept :: after)
    let stop := (Cursor.ofLines (before ++ text :: after)).1.closing.position
    let sketch := (Walk.start.run stop (Cursor.tokensFrom 1 (before ++ text :: after))).block
    (∀ m e', p.errors[m]? = some e' → e'.position.line = before.length + 1 → m = n) ∧
      q.errors = p.errors.eraseIdx n ∧ q.program.arena = p.program.arena ∧
      p.program.root = sketch.fill Sketch.nulls ∧
      (∃ symbol, q.program.root = sketch.fill
        (Sketch.instead n (kept.toList.map fun heading => heading.statement symbol))) ∧
      (Sketch.marksAll sketch.body).Nodup := by
  intro kept p q stop sketch
  have hgoes : e.abortsBlock = false := by
    unfold SyntaxError.abortsBlock
    split
    case h_1 flaw h => exact absurd h (hcause flaw)
    case h_2 => rfl
  have hstop : before.length + 2 ≤ stop.line := by
    have hlines : before ++ text :: after ≠ [] := by simp
    obtain ⟨_, -, hclosing⟩ := Cursor.exists_closing_ofLines hlines
    have hlength := List.length_pos_iff.mpr hafter
    simp only [stop, hclosing, Cursor.lineEnd, List.length_append, List.length_cons]
    omega
  obtain ⟨hprogram, herrors⟩ := parse_of_scanned hscanned
  obtain ⟨hprogram', herrors'⟩ := parse_of_scanned (scanned_cut (e := e) hscanned htokens)
  rw [Cursor.closing_ofLines_congr _ text hafter] at hprogram' herrors'
  rw [herrors, List.getElem?_map, Option.map_eq_some_iff] at herror
  obtain ⟨_, herror, ⟨⟩⟩ := herror
  obtain ⟨hunique, w, first, rest, hpasses, hmarked, hmode, hn, rfl, hleaf, hread, hpassed⟩ :=
    Walk.exists_line_error hstop htokens hbraces herror hline hgoes
  obtain ⟨symbol, hkept⟩ := Walk.exists_passes_kept hmode hleaf htokens rfl hread
  have halike : Walk.Alike
      (Sketch.instead n (kept.toList.map fun heading => heading.statement symbol))
      (w.errors ++ [e]) w.errors
      (Walk.start.run stop (Cursor.tokensFrom 1 (before ++ text :: after)))
      (Walk.start.run stop (Cursor.tokensFrom 1 (before ++ Heading.cut text kept :: after))) := by
    rw [Walk.run_lines hpasses hpassed, Walk.run_lines hpasses hkept, ← hn]
    exact (Walk.alike_fail hmarked e).run (Walk.later_instead e) rfl stop _
  refine ⟨?_, ?_, ?_, ?_, ⟨symbol, ?_⟩, (Walk.Marked.start.run _ _).nodup⟩
  · intro m e' he' hline'
    simp only [p, herrors, List.getElem?_map, Option.map_eq_some_iff] at he'
    obtain ⟨e', he', rfl⟩ := he'
    exact hunique m e' he' hline'
  · rw [herrors', herrors, halike.eraseIdx, hn, List.eraseIdx_map]
  · rw [hprogram', hprogram]
    exact halike.arena.symm
  · rw [hprogram]
  · rw [hprogram']
    exact halike.block.symm

/-- The first value of a declaration in a block fails, between errors on other lines. -/
theorem parse_contained_initial :
    let before := ["z = 1", "\x7b"]
    let text := "var x number = y"
    let after := ["x = \"a\"", "\x7d", "x = 1"]
    let at3 (kind : TokenKind) (literal : String) (column : Nat) : Token :=
      { kind, literal, position := { line := 3, column } }
    let tokens := [at3 (.keyword .var) "var" 1, at3 .identifier "x" 5,
      at3 (.keyword .number) "number" 7, at3 .equals "=" 14, at3 .identifier "y" 16]
    let e := SyntaxError.undeclared (at3 .identifier "y" 16)
    let kept := Heading.kept? e tokens
    let p := parse (before ++ text :: after)
    let q := parse (before ++ Heading.cut text kept :: after)
    let stop := (Cursor.ofLines (before ++ text :: after)).1.closing.position
    let sketch := (Walk.start.run stop (Cursor.tokensFrom 1 (before ++ text :: after))).block
    (Cursor.ofLines (before ++ text :: after)).2 = [] ∧ Token.ofLine 3 text = .ok tokens ∧
      p.errors.length = 4 ∧ p.errors[1]? = some (.grammar e) ∧
      Heading.cut text kept = "var x number" ∧
      (∀ m e', p.errors[m]? = some e' → e'.position.line = 3 → m = 1) ∧
      q.errors = p.errors.eraseIdx 1 ∧ q.program.arena = p.program.arena ∧
      p.program.root = sketch.fill Sketch.nulls ∧
      (∃ symbol, q.program.root = sketch.fill
        (Sketch.instead 1 (kept.toList.map fun heading => heading.statement symbol))) ∧
      (Sketch.marksAll sketch.body).Nodup := by
  intro before text after at3 tokens e kept p q stop sketch
  have hscanned : (Cursor.ofLines (before ++ text :: after)).2 = [] := by decide +kernel
  have htokens : Token.ofLine 3 text = .ok tokens := by decide +kernel
  have hlength : p.errors.length = 4 := by decide +kernel
  have herror : p.errors[1]? = some (.grammar e) := by decide +kernel
  have hcut : Heading.cut text kept = "var x number" := by decide +kernel
  have hbraces : ∀ token ∈ tokens, token.kind ≠ .leftBrace ∧ token.kind ≠ .rightBrace := by decide
  refine ⟨hscanned, htokens, hlength, herror, hcut, ?_⟩
  exact parse_contained hscanned (List.cons_ne_nil _ _) htokens hbraces herror rfl nofun

end Program

end LineScript
