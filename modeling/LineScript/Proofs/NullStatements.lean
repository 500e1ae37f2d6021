import LineScript.Proofs.Comments
import LineScript.Proofs.Reading.Braces
import LineScript.Proofs.RuntimeErrors

/-!
# Null statements

A statement that cannot be read leaves an error in a list and a null statement in the tree.
The two do not correspond one to one. A block that is not ended as a statement has to be is
given up as a whole, with the null statements inside it, while their errors stay in the list.
But it leaves a null statement of its own. So a tree holds a null statement, at whatever depth,
just if something other than a brace was at fault, and it never holds more of them than there
were such errors (`Program.nulls_parse`).
-/

namespace LineScript

/-! ## The null statements of a tree -/

namespace Statement

/-- The statement is null, or one inside it is. -/
inductive HasNull : Statement → Prop where
  | null : HasNull .null
  | inside {position : Position} {table : TableId} {body : List Statement} {statement : Statement}
      (hmem : statement ∈ body) (h : statement.HasNull) : HasNull (.block position table body)

mutual

/-- How many null statements there are in a statement, itself included. -/
def nulls : Statement → Nat
  | .null => 1
  | .block _ _ body => nullsAll body
  | .declare .. | .assign .. | .print .. => 0

def nullsAll : List Statement → Nat
  | [] => 0
  | statement :: rest => statement.nulls + nullsAll rest

end

@[simp] theorem nulls_null : nulls .null = 1 := by
  rw [nulls]

@[simp] theorem nulls_block {position : Position} {table : TableId} {body : List Statement} :
    nulls (.block position table body) = nullsAll body := by
  rw [nulls]

@[simp] theorem nullsAll_nil : nullsAll [] = 0 := by
  rw [nullsAll]

@[simp] theorem nullsAll_cons {statement : Statement} {rest : List Statement} :
    nullsAll (statement :: rest) = statement.nulls + nullsAll rest := by
  rw [nullsAll]

theorem nulls_leaf {statement : Statement} {position : Position}
    (h : statement.leaf? = some position) : statement.nulls = 0 := by
  cases statement with
  | null => cases h
  | block => cases h
  | _ => rw [nulls]

mutual

theorem nulls_pos_iff : ∀ statement : Statement, 0 < statement.nulls ↔ statement.HasNull
  | .null => iff_of_true (by simp) .null
  | .declare .. => iff_of_false (by simp [nulls]) (by rintro ⟨⟩)
  | .assign .. => iff_of_false (by simp [nulls]) (by rintro ⟨⟩)
  | .print .. => iff_of_false (by simp [nulls]) (by rintro ⟨⟩)
  | .block position table body => by
    rw [nulls_block, nullsAll_pos_iff body]
    constructor
    · rintro ⟨statement, hmem, h⟩
      exact .inside hmem h
    · rintro (_ | ⟨hmem, h⟩)
      exact ⟨_, hmem, h⟩

theorem nullsAll_pos_iff : ∀ body : List Statement,
    0 < nullsAll body ↔ ∃ statement ∈ body, statement.HasNull
  | [] => by simp
  | statement :: rest => by
    rw [nullsAll_cons, Nat.add_pos_iff_pos_or_pos, nulls_pos_iff statement, nullsAll_pos_iff rest,
      List.exists_mem_cons_iff]

end

end Statement

/-! ## Errors that are not about braces -/

namespace SyntaxError

/-- How many errors are about something other than a brace without a partner. -/
def faults (errors : List SyntaxError) : Nat :=
  errors.countP fun e => !e.isBrace

variable {e : SyntaxError} {errors later : List SyntaxError}

@[simp] theorem faults_nil : faults [] = 0 := rfl

@[simp] theorem faults_append : faults (errors ++ later) = faults errors + faults later :=
  List.countP_append

theorem faults_cons_of_isBrace (errors : List SyntaxError) (h : e.isBrace = true) :
    faults (e :: errors) = faults errors :=
  List.countP_cons_of_neg (by simp [h])

theorem faults_cons (h : e.isBrace = false) : faults (e :: errors) = faults errors + 1 :=
  List.countP_cons_of_pos (by simp [h])

end SyntaxError

theorem Site.faults_endErrors (site : Site) (position : Position) :
    SyntaxError.faults (site.endErrors position) = 0 := by
  unfold Site.endErrors
  split <;> rfl

/-- If the rest of a block is dropped, only the brace at its end can be missed. -/
theorem Recovery.faults_skipBlock (stop : Position) (nested : Bool) (depth : Nat)
    (tokens : List Token) :
    SyntaxError.faults (skipBlock stop nested depth tokens).1.toList = 0 := by
  induction tokens generalizing depth with
  | nil => cases nested <;> rfl
  | cons token rest ih =>
    simp only [skipBlock]
    split
    · cases nested <;> rfl
    · exact ih _
    · split
      · rfl
      · exact ih _
    · exact ih _

/-! ## Readings -/

section reading

variable {site : Site} {a b : Arena} {tokens left : List Token} {body : List Statement}
variable {e : SyntaxError} {errors own : List SyntaxError}

open SyntaxError (faults)
open Statement (nullsAll)

/-- The errors left their trace in the statements. -/
structure Traced (errors : List SyntaxError) (body : List Statement) : Prop where
  le : nullsAll body ≤ faults errors
  pos : 0 < faults errors → 0 < nullsAll body

namespace Traced

theorem nil (h : faults errors = 0) : Traced errors [] :=
  ⟨by simp, by simp [h]⟩

theorem brace (he : e.isBrace = true) (h : Traced errors body) : Traced (e :: errors) body := by
  have hsame := SyntaxError.faults_cons_of_isBrace errors he
  exact ⟨hsame.symm ▸ h.le, hsame.symm ▸ h.pos⟩

/-- A statement in front that left the trace of its own errors. -/
theorem cons {statement : Statement} (hown : Traced own [statement]) (h : Traced errors body) :
    Traced (own ++ errors) (statement :: body) := by
  obtain ⟨hownLe, hownPos⟩ := hown
  obtain ⟨hle, hpos⟩ := h
  simp only [Statement.nullsAll_cons, Statement.nullsAll_nil, Nat.add_zero] at hownLe hownPos
  constructor
  · rw [Statement.nullsAll_cons, SyntaxError.faults_append]
    exact Nat.add_le_add hownLe hle
  · rw [Statement.nullsAll_cons, SyntaxError.faults_append]
    omega

/-- A statement that was given up, whatever errors were found inside it. -/
theorem null (own : List SyntaxError) (he : e.isBrace = false) (h : Traced errors body) :
    Traced (own ++ e :: errors) (.null :: body) := by
  have hown : Traced (own ++ [e]) [.null] := by
    constructor
    · simp [SyntaxError.faults_cons he]
    · simp
  simpa using hown.cons h

end Traced

/-- Every reading leaves the trace of its errors. -/
theorem BodyReads.traced (h : BodyReads site a tokens body left b errors) :
    Traced errors body := by
  induction h with
  | ended => exact .nil (Site.faults_endErrors _ _)
  | stopped => exact .nil (Site.faults_endErrors _ _)
  | blank _ _ ih => exact ih
  | closed => exact .nil rfl
  | stray _ _ _ ih => exact ih.brace rfl
  | @leaf _ _ _ _ _ _ statement _ _ hleaf hread _ ih =>
    have hnone : nullsAll [statement] = 0 := by
      simp [Statement.nulls_leaf (Statement.leaf?_of_read hleaf hread)]
    have hown : Traced [] [statement] := ⟨Nat.le_of_eq hnone, by simp⟩
    exact hown.cons ih
  | @leafFailed site a _ _ rest _ _ _ _ hleaf hread _ _ ih =>
    exact ih.null [] ((Statement.braceless_read site a rest hleaf).error hread)
  | @leafAborted site a token rest _ hleaf hread _ =>
    have hskipped := Traced.nil (Recovery.faults_skipBlock site.stop site.nested 0
      (Statement.read site a token rest).rest)
    exact hskipped.null [] ((Statement.braceless_read site a rest hleaf).error hread)
  | block _ _ _ _ ihinner ihouter =>
    refine Traced.cons ⟨?_, ?_⟩ ihouter
    · simpa using ihinner.le
    · simpa using ihinner.pos
  | @blockFailed _ _ _ _ _ _ _ _ _ _ _ inside _ _ _ _ _ _ ihouter => exact ihouter.null inside rfl

end reading

/-! ## Programs -/

/-- The message is about a brace that has no partner. -/
def Diagnostic.isBrace : Diagnostic → Bool
  | .grammar e => e.isBrace
  | .lexical _ | .runtime _ => false

namespace Program

/-- If all lines can be scanned, the tree holds a null statement just if something other than a
brace without a partner was at fault, and it holds at most as many of them as there are errors
of that sort. -/
theorem nulls_parse {lines : List String} (hscanned : (Cursor.ofLines lines).2 = []) :
    let body := (parse lines).program.root.body
    let others := (parse lines).errors.filter fun e => !e.isBrace
    ((∃ statement ∈ body, statement.HasNull) ↔ others ≠ []) ∧
      Statement.nullsAll body ≤ others.length := by
  intro body others
  obtain ⟨hprogram, herrors⟩ := parse_eq_ofTokens hscanned
  obtain ⟨hle, hpos⟩ := (bodyReads_ofTokens (Cursor.ofLines lines).1).traced
  have hothers : others.length = SyntaxError.faults (ofTokens (Cursor.ofLines lines).1).2.1 := by
    simp only [others, herrors, ← List.countP_eq_length_filter, List.countP_map]
    rfl
  have hbody : body = (ofTokens (Cursor.ofLines lines).1).1.root.body := by
    rw [← hprogram]
  rw [← hothers, ← hbody] at hle hpos
  refine ⟨?_, hle⟩
  rw [← Statement.nullsAll_pos_iff, ← List.length_pos_iff]
  exact ⟨fun h => Nat.lt_of_lt_of_le h hle, hpos⟩

/-- Three errors are found in a block, which is then given up because of a fourth. Of their null
statements the one of the last error is left, beside that of a declaration. -/
theorem nulls_parse_givenUp :
    let lines := ["\x7b", "x = 1", "\x7b y = 2", "print + \x7d", "\x7d z", "var", "\x7b"]
    let body := (parse lines).program.root.body
    let others := (parse lines).errors.filter fun e => !e.isBrace
    (Cursor.ofLines lines).2 = [] ∧ others.length = 5 ∧ Statement.nullsAll body = 2 ∧
      ((∃ statement ∈ body, statement.HasNull) ↔ others ≠ []) ∧
      Statement.nullsAll body ≤ others.length := by
  intro lines body others
  have hscanned : (Cursor.ofLines lines).2 = [] := by decide +kernel
  exact ⟨hscanned, by decide +kernel, by decide +kernel, nulls_parse hscanned⟩

end Program

end LineScript
