import LineScript.Proofs.Reading.Rules

/-!
# Reading as a walk over the tokens

Reading a body calls itself for every block. A walk does the same work in steps: it
holds the block that is being read, the blocks around it, and what was found so far,
and every step takes tokens from the front. What was read up to a place is then a
value, so that readings of different tokens can be compared from that place on.

The tree of a walk is a sketch. Where an error left a null statement it has a mark,
the number of the error in the list of errors. The tree of the reading is the sketch
with a null statement for each mark, and `Walk.run_of_bodyReads` says that walking
and reading do the same.
-/

namespace LineScript

/-! ## Sketches -/

inductive Sketch where
  /-- What is left of the statement that the error of this number was found in. -/
  | failed (error : Nat)
  | leaf (statement : Statement)
  | block (position : Position) (table : TableId) (body : List Sketch)

namespace Sketch

mutual

/-- The statements of a sketch, with `leave n` in the place of mark `n`. -/
def fill (leave : Nat → List Statement) : Sketch → List Statement
  | .failed error => leave error
  | .leaf statement => [statement]
  | .block position table body => [.block position table (fillAll leave body)]

def fillAll (leave : Nat → List Statement) : List Sketch → List Statement
  | [] => []
  | sketch :: later => sketch.fill leave ++ fillAll leave later

end

/-- Every error leaves a null statement. -/
def nulls : Nat → List Statement :=
  fun _ => [.null]

variable {leave : Nat → List Statement}

@[simp] theorem fill_failed {n : Nat} : fill leave (.failed n) = leave n := by
  simp only [fill]

@[simp] theorem fill_leaf {statement : Statement} : fill leave (.leaf statement) = [statement] := by
  simp only [fill]

@[simp] theorem fill_block {position : Position} {table : TableId} {body : List Sketch} :
    fill leave (.block position table body) = [.block position table (fillAll leave body)] := by
  simp only [fill]

@[simp] theorem fillAll_nil : fillAll leave [] = [] := by
  simp only [fillAll]

@[simp] theorem fillAll_cons {sketch : Sketch} {later : List Sketch} :
    fillAll leave (sketch :: later) = sketch.fill leave ++ fillAll leave later := by
  simp only [fillAll]

@[simp] theorem fillAll_append {sketches later : List Sketch} :
    fillAll leave (sketches ++ later) = fillAll leave sketches ++ fillAll leave later := by
  induction sketches with
  | nil => simp
  | cons sketch sketches ih => simp [ih]

end Sketch

/-! ## Walks -/

/-- What happens to the tokens of a block: they are read, or they are dropped, while
`depth` blocks are open among the dropped ones. -/
inductive Walk.Mode where
  | reading
  | skipping (depth : Nat)
  deriving DecidableEq

/-- A block whose end was not seen yet. -/
structure OpenBlock where
  position : Position
  table : TableId
  body : List Sketch

def OpenBlock.fill (leave : Nat → List Statement) (block : OpenBlock) : Block :=
  { position := block.position, table := block.table, body := Sketch.fillAll leave block.body }

/-- What is known at a place between two tokens. -/
structure Walk where
  mode : Walk.Mode
  block : OpenBlock
  /-- The blocks around `block`, from the inside out. -/
  outer : List OpenBlock
  arena : Arena
  errors : List SyntaxError

namespace Walk

/-- A walk that has not met a token yet. -/
def start : Walk :=
  let opened := Arena.empty.openTable none
  { mode := .reading
    block := { position := .start, table := opened.1, body := [] }
    outer := []
    arena := opened.2
    errors := [] }

def site (stop : Position) (w : Walk) : Site :=
  { table := w.block.table, depth := w.outer.length, stop }

def nested (w : Walk) : Bool :=
  0 < w.outer.length

def add (sketch : Sketch) (w : Walk) : Walk :=
  { w with block := { w.block with body := w.block.body ++ [sketch] } }

def report (e : SyntaxError) (w : Walk) : Walk :=
  { w with errors := w.errors ++ [e] }

/-- Leaves a mark for a statement that failed. -/
def fail (e : SyntaxError) (w : Walk) : Walk :=
  (w.add (.failed w.errors.length)).report e

/-- Goes on behind a statement that failed in front of the tokens. -/
def giveUp (e : SyntaxError) (w : Walk) (tokens : List Token) : Walk × List Token :=
  if e.abortsBlock then ({ w.fail e with mode := .skipping 0 }, tokens)
  else (w.fail e, Recovery.resync w.nested tokens)

/-- Opens the block that the token begins. -/
def enter (token : Token) (w : Walk) : Walk :=
  let opened := w.arena.openTable (some w.block.table)
  { w with
    block := { position := token.position, table := opened.1, body := [] }
    outer := w.block :: w.outer
    arena := opened.2 }

/-- Closes the innermost block, which is a statement of the block around it and has to
end like one. -/
def leave (w : Walk) (tokens : List Token) : Walk × List Token :=
  match w.outer with
  | [] => (w, tokens)
  | parent :: outer =>
    let back : Walk := { w with mode := .reading, block := parent, outer }
    let whole := Sketch.block w.block.position w.block.table w.block.body
    match tokens with
    | [] => (back.add whole, [])
    | token :: rest =>
      if token.kind = .newline then (back.add whole, rest)
      else if Statement.endsBefore token.kind then (back.add whole, token :: rest)
      else back.giveUp (.expected .endOfStatement token) (token :: rest)

/-- Reads the statement without statements that the token begins. -/
def take (stop : Position) (token : Token) (w : Walk) (rest : List Token) : Walk × List Token :=
  let r := Statement.read (w.site stop) w.arena token rest
  let grown : Walk := { w with arena := r.arena }
  match r.outcome with
  | .ok statement => (grown.add (.leaf statement), r.rest)
  | .error e => grown.giveUp e r.rest

/-- At the end of input the open blocks end, the inner ones first. -/
def atEnd (position : Position) (w : Walk) (tokens : List Token) : Option (Walk × List Token) :=
  if w.nested then some ((w.report (Recovery.unclosed position)).leave tokens) else none

/-- Takes a token of a block that is read. -/
def readOn (stop : Position) (token : Token) (w : Walk) (rest : List Token) :
    Option (Walk × List Token) :=
  match token.kind with
  | .newline | .hash => some (w, rest)
  | .endOfInput => w.atEnd token.position (token :: rest)
  | .rightBrace => some (if w.nested then w.leave rest else (w.report (.unmatched token), rest))
  | .leftBrace => some (w.enter token, rest)
  | _ => some (w.take stop token rest)

/-- Drops a token of a block that is skipped. -/
def skipOn (depth : Nat) (token : Token) (w : Walk) (rest : List Token) :
    Option (Walk × List Token) :=
  match token.kind with
  | .endOfInput => w.atEnd token.position rest
  | .leftBrace => some ({ w with mode := .skipping (depth + 1) }, rest)
  | .rightBrace =>
    some (if w.nested && depth = 0 then w.leave rest
      else ({ w with mode := .skipping (depth - 1) }, rest))
  | _ => some (w, rest)

/-- One step, which is none if the walk is over. -/
def step (stop : Position) (w : Walk) (tokens : List Token) : Option (Walk × List Token) :=
  match tokens with
  | [] => w.atEnd stop []
  | token :: rest =>
    match w.mode with
    | .reading => w.readOn stop token rest
    | .skipping depth => w.skipOn depth token rest

/-! ## What steps do to the fields -/

section fields

variable {w : Walk} {sketch : Sketch} {e : SyntaxError} {token : Token} {tokens rest : List Token}
variable {stop : Position}

@[simp] theorem add_errors : (w.add sketch).errors = w.errors := rfl
@[simp] theorem report_outer : (w.report e).outer = w.outer := rfl
@[simp] theorem report_errors : (w.report e).errors = w.errors ++ [e] := rfl
@[simp] theorem fail_outer : (w.fail e).outer = w.outer := rfl
@[simp] theorem fail_errors : (w.fail e).errors = w.errors ++ [e] := rfl
@[simp] theorem nested_report : (w.report e).nested = w.nested := rfl

theorem nested_iff : w.nested = true ↔ w.outer ≠ [] := by
  cases h : w.outer <;> simp [nested, h]

theorem giveUp_of_aborts (h : e.abortsBlock = true) :
    w.giveUp e tokens = ({ w.fail e with mode := .skipping 0 }, tokens) := by
  simp only [giveUp, h, if_true]

theorem giveUp_of_goes (h : e.abortsBlock = false) :
    w.giveUp e tokens = (w.fail e, Recovery.resync w.nested tokens) := by
  simp only [giveUp, h, Bool.false_eq_true, if_false]

theorem giveUp_suffix (e : SyntaxError) (w : Walk) (tokens : List Token) :
    (w.giveUp e tokens).2 <:+ tokens := by
  unfold giveUp
  split
  · exact List.suffix_rfl
  · exact Recovery.resync_suffix _ _

@[simp] theorem giveUp_outer : (w.giveUp e tokens).1.outer = w.outer := by
  unfold giveUp
  split <;> rfl

theorem leave_suffix (w : Walk) (tokens : List Token) : (w.leave tokens).2 <:+ tokens := by
  unfold leave
  split
  · exact List.suffix_rfl
  · dsimp only
    split
    · exact List.suffix_rfl
    · split
      · exact List.suffix_cons _ _
      · split
        · exact List.suffix_rfl
        · exact giveUp_suffix _ _ _

theorem leave_outer (w : Walk) (tokens : List Token) : (w.leave tokens).1.outer = w.outer.tail := by
  unfold leave
  split
  case h_1 h => rw [h]; rfl
  case h_2 parent outer h =>
    rw [h]
    dsimp only
    split
    · rfl
    · split
      · rfl
      · split
        · rfl
        · exact giveUp_outer

theorem take_suffix (stop : Position) (token : Token) (w : Walk) (rest : List Token) :
    (w.take stop token rest).2 <:+ rest := by
  unfold take
  dsimp only
  split
  · exact (Statement.read (w.site stop) w.arena token rest).suffix
  · exact (giveUp_suffix _ _ _).trans (Statement.read (w.site stop) w.arena token rest).suffix

@[simp] theorem take_outer : (w.take stop token rest).1.outer = w.outer := by
  unfold take
  dsimp only
  split
  · rfl
  · exact giveUp_outer

end fields

/-! ## What steps there are -/

/-- All that a step can do in front of the tokens. -/
inductive StepsTo (stop : Position) (w : Walk) : List Token → Walk × List Token → Prop where
  /-- The input ended in a block. -/
  | misses {position : Position} {tokens left : List Token} (hnested : w.nested = true)
      (hleft : left <:+ tokens) (hend : ∀ token ∈ tokens.head?, token.kind = .endOfInput) :
      StepsTo stop w tokens ((w.report (Recovery.unclosed position)).leave left)
  /-- A token was dropped. -/
  | passes {token : Token} {rest : List Token} {mode : Mode} :
      StepsTo stop w (token :: rest) ({ w with mode }, rest)
  | closes {token : Token} {rest : List Token} (hnested : w.nested = true) :
      StepsTo stop w (token :: rest) (w.leave rest)
  | strays {token : Token} {rest : List Token} :
      StepsTo stop w (token :: rest) (w.report (.unmatched token), rest)
  | opens {token : Token} {rest : List Token} : StepsTo stop w (token :: rest) (w.enter token, rest)
  | takes {token : Token} {rest : List Token} (hmode : w.mode = .reading)
      (hleaf : token.StartsLeaf) : StepsTo stop w (token :: rest) (w.take stop token rest)

section stepsTo

variable {stop : Position} {w : Walk} {tokens : List Token} {p : Walk × List Token}

theorem stepsTo_of_atEnd {position : Position} {left : List Token}
    (h : w.atEnd position left = some p) (hleft : left <:+ tokens)
    (hend : ∀ token ∈ tokens.head?, token.kind = .endOfInput) : StepsTo stop w tokens p := by
  unfold atEnd at h
  split at h
  case isTrue hnested =>
    cases h
    exact .misses hnested hleft hend
  case isFalse => cases h

theorem stepsTo_of_step (h : w.step stop tokens = some p) : StepsTo stop w tokens p := by
  cases tokens with
  | nil => exact stepsTo_of_atEnd h List.suffix_rfl (by simp)
  | cons token rest =>
    cases hmode : w.mode with
    | reading =>
      simp only [step, hmode, readOn] at h
      split at h
      case h_3 hinput => exact stepsTo_of_atEnd h List.suffix_rfl (by simp [hinput])
      case h_4 =>
        cases h
        split
        case isTrue hnested => exact .closes hnested
        case isFalse => exact .strays
      case h_5 =>
        cases h
        exact .opens
      case h_6 hline hhash hinput hright hleft =>
        cases h
        exact .takes hmode ⟨hline, hhash, hinput, hleft, hright⟩
      all_goals
        cases h
        exact .passes
    | skipping depth =>
      simp only [step, hmode, skipOn] at h
      split at h
      case h_1 hinput => exact stepsTo_of_atEnd h (List.suffix_cons _ _) (by simp [hinput])
      case h_3 =>
        cases h
        split
        case isTrue hinside =>
          rw [Bool.and_eq_true] at hinside
          exact .closes hinside.1
        case isFalse => exact .passes
      all_goals
        cases h
        exact .passes

end stepsTo

/-! ## Whole walks -/

section run

variable {stop : Position} {w : Walk} {tokens : List Token} {p : Walk × List Token}

/-- Steps take tokens or close blocks, and a token opens at most one block. -/
def effort (w : Walk) (tokens : List Token) : Nat :=
  2 * tokens.length + w.outer.length

theorem effort_leave (h : w.nested = true) (tokens : List Token) :
    (w.leave tokens).1.effort (w.leave tokens).2 < w.effort tokens := by
  have htokens := (leave_suffix w tokens).length_le
  have houter := congrArg List.length (leave_outer w tokens)
  have hpositive : 0 < w.outer.length := of_decide_eq_true h
  simp only [effort, houter, List.length_tail]
  omega

theorem effort_step (h : step stop w tokens = some p) : p.1.effort p.2 < w.effort tokens := by
  -- All steps but those at the end of input leave no more than the tokens behind the first.
  have shorter {token : Token} {rest left : List Token} (hleft : left <:+ rest) {outer : Nat}
      (houter : outer ≤ w.outer.length + 1) :
      2 * left.length + outer < w.effort (token :: rest) := by
    have hlength := hleft.length_le
    simp only [effort, List.length_cons]
    omega
  cases stepsTo_of_step h with
  | @misses position _ left hnested hleft _ =>
    have hleave := effort_leave (w := w.report (Recovery.unclosed position)) hnested left
    have hlength := hleft.length_le
    simp only [effort, report_outer] at hleave ⊢
    omega
  | passes => exact shorter List.suffix_rfl (Nat.le_succ _)
  | closes =>
    refine shorter (leave_suffix w _) ?_
    rw [leave_outer, List.length_tail]
    omega
  | strays => exact shorter List.suffix_rfl (Nat.le_succ _)
  | opens => exact shorter List.suffix_rfl (Nat.le_refl _)
  | takes =>
    refine shorter (take_suffix stop _ w _) ?_
    rw [take_outer]
    exact Nat.le_succ _

/-- Walks on until there is no step to take. -/
def run (stop : Position) (w : Walk) (tokens : List Token) : Walk :=
  match _h : w.step stop tokens with
  | none => w
  | some p => run stop p.1 p.2
termination_by w.effort tokens
decreasing_by exact effort_step _h

theorem run_of_step (h : w.step stop tokens = some p) : w.run stop tokens = p.1.run stop p.2 := by
  rw [run]
  split
  case h_1 hnone => rw [h] at hnone; cases hnone
  case h_2 q hsome => rw [h] at hsome; cases hsome; rfl

theorem run_of_step_none (h : w.step stop tokens = none) : w.run stop tokens = w := by
  rw [run]
  split
  case h_1 => rfl
  case h_2 q hsome => rw [h] at hsome; cases hsome

end run

section rules

variable {stop : Position} {w : Walk} {token : Token} {tokens rest : List Token}

section reading

variable (hmode : w.mode = .reading)

include hmode

theorem step_of_blank (h : token.kind = .newline ∨ token.kind = .hash) :
    w.step stop (token :: rest) = some (w, rest) := by
  obtain h | h := h <;> simp only [step, hmode, readOn, h]

theorem step_of_stopped (h : token.kind = .endOfInput) :
    w.step stop (token :: rest) = w.atEnd token.position (token :: rest) := by
  simp only [step, hmode, readOn, h]

theorem step_of_closed (h : token.kind = .rightBrace) (hnested : w.nested = true) :
    w.step stop (token :: rest) = some (w.leave rest) := by
  simp only [step, hmode, readOn, h, hnested, if_true]

theorem step_of_stray (h : token.kind = .rightBrace) (hroot : w.nested = false) :
    w.step stop (token :: rest) = some (w.report (.unmatched token), rest) := by
  simp only [step, hmode, readOn, h, hroot, Bool.false_eq_true, if_false]

theorem step_of_leftBrace (h : token.kind = .leftBrace) :
    w.step stop (token :: rest) = some (w.enter token, rest) := by
  simp only [step, hmode, readOn, h]

theorem step_of_startsLeaf (h : token.StartsLeaf) :
    w.step stop (token :: rest) = some (w.take stop token rest) := by
  obtain ⟨hline, hhash, hinput, hleft, hright⟩ := h
  simp only [step, hmode, readOn]

end reading

section skipping

variable {depth : Nat} (hmode : w.mode = .skipping depth)

include hmode

theorem step_of_skipped (hinput : token.kind ≠ .endOfInput) (hleft : token.kind ≠ .leftBrace)
    (hright : token.kind ≠ .rightBrace) : w.step stop (token :: rest) = some (w, rest) := by
  simp only [step, hmode, skipOn]

theorem step_of_skipped_endOfInput (h : token.kind = .endOfInput) :
    w.step stop (token :: rest) = w.atEnd token.position rest := by
  simp only [step, hmode, skipOn, h]

theorem step_of_skipped_leftBrace (h : token.kind = .leftBrace) :
    w.step stop (token :: rest) = some ({ w with mode := .skipping (depth + 1) }, rest) := by
  simp only [step, hmode, skipOn, h]

theorem step_of_skipped_rightBrace (h : token.kind = .rightBrace)
    (hinside : (w.nested && depth = 0) = false) :
    w.step stop (token :: rest) = some ({ w with mode := .skipping (depth - 1) }, rest) := by
  simp only [step, hmode, skipOn, h, hinside, Bool.false_eq_true, if_false]

theorem step_of_skipped_closed (h : token.kind = .rightBrace) (hnested : w.nested = true)
    (hdepth : depth = 0) : w.step stop (token :: rest) = some (w.leave rest) := by
  simp only [step, hmode, skipOn, h, hnested, hdepth, decide_true, Bool.and_self, if_true]

end skipping

section taken

variable {e : SyntaxError} {statement : Statement}

theorem take_of_ok (h : (Statement.read (w.site stop) w.arena token rest).outcome = .ok statement) :
    w.take stop token rest =
      (add (.leaf statement)
          { w with arena := (Statement.read (w.site stop) w.arena token rest).arena },
        (Statement.read (w.site stop) w.arena token rest).rest) := by
  simp only [take, h]

theorem take_of_error (h : (Statement.read (w.site stop) w.arena token rest).outcome = .error e) :
    w.take stop token rest =
      giveUp e { w with arena := (Statement.read (w.site stop) w.arena token rest).arena }
        (Statement.read (w.site stop) w.arena token rest).rest := by
  simp only [take, h]

end taken

section left

variable {parent : OpenBlock} {outer : List OpenBlock} {next : List Token} {found : Token}

/-- A block may end in front of the tokens, or goes on where it must not. -/
theorem ends_or_goes (tokens : List Token) :
    (∃ next, Ends tokens next) ∨
      ∃ found rest, tokens = found :: rest ∧ Statement.endsBefore found.kind = false := by
  cases tokens with
  | nil => exact .inl ⟨[], .input⟩
  | cons found rest =>
    cases hends : Statement.endsBefore found.kind with
    | false => exact .inr ⟨found, rest, rfl, hends⟩
    | true =>
      refine .inl ?_
      unfold Statement.endsBefore at hends
      split at hends
      case h_1 hline => exact ⟨rest, .line hline⟩
      case h_2 hinput => exact ⟨_, .before (.inl hinput)⟩
      case h_3 hbrace => exact ⟨_, .before (.inr (.inl hbrace))⟩
      case h_4 hhash => exact ⟨_, .before (.inr (.inr hhash))⟩
      case h_5 => cases hends

theorem leave_of_ends (houter : w.outer = parent :: outer) (ends : Ends tokens next) :
    w.leave tokens =
      (add (.block w.block.position w.block.table w.block.body)
        { w with mode := .reading, block := parent, outer }, next) := by
  cases ends with
  | input => simp only [leave, houter]
  | line h => simp only [leave, houter, h, if_true]
  | before h =>
    obtain h | h | h := h <;> simp [leave, houter, h, Statement.endsBefore]

theorem leave_of_goes (houter : w.outer = parent :: outer)
    (goes : Statement.endsBefore found.kind = false) :
    w.leave (found :: rest) =
      giveUp (.expected .endOfStatement found)
        { w with mode := .reading, block := parent, outer } (found :: rest) := by
  have hline : found.kind ≠ .newline := by
    intro hline
    rw [hline] at goes
    cases goes
  simp only [leave, houter, hline, if_false, goes, Bool.false_eq_true]

end left

end rules

/-! ## Walking and reading -/

section correspondence

variable {stop : Position} {w : Walk} {site : Site} {a b : Arena} {tokens left : List Token}
variable {body : List Statement} {errors : List SyntaxError} {items : List Sketch} {mode : Mode}

/-- The walk when the tokens of its block are read. -/
def grown (w : Walk) (items : List Sketch) (b : Arena) (errors : List SyntaxError) (mode : Mode) :
    Walk :=
  { mode
    block := { w.block with body := w.block.body ++ items }
    outer := w.outer
    arena := b
    errors := w.errors ++ errors }

/-- What becomes of a walk behind its innermost block, from which the tokens are left. -/
def runBehind (stop : Position) (w : Walk) (left : List Token) : Walk :=
  if w.nested then (w.leave left).1.run stop (w.leave left).2 else w

theorem run_atEnd {position : Position} (h : w.step stop tokens = w.atEnd position left) :
    w.run stop tokens =
      (w.grown [] w.arena ((w.site stop).endErrors position) w.mode).runBehind stop left := by
  cases hnested : w.nested with
  | true =>
    have hstep : w.step stop tokens =
        some ((w.report (Recovery.unclosed position)).leave left) := by
      rw [h, atEnd, hnested, if_pos rfl]
    have hgrown : w.grown [] w.arena ((w.site stop).endErrors position) w.mode =
        w.report (Recovery.unclosed position) := by
      simp only [grown, report, Site.endErrors, List.append_nil]
      rw [if_pos (show (w.site stop).nested = true from hnested)]
    rw [run_of_step hstep, hgrown, runBehind, nested_report, hnested, if_pos rfl]
  | false =>
    have hstep : w.step stop tokens = none := by
      rw [h, atEnd, hnested, if_neg Bool.false_ne_true]
    have hgrown : w.grown [] w.arena ((w.site stop).endErrors position) w.mode = w := by
      simp only [grown, Site.endErrors, List.append_nil]
      rw [if_neg (by rw [show (w.site stop).nested = false from hnested]; simp)]
      simp
    rw [run_of_step_none hstep, hgrown, runBehind, hnested, if_neg Bool.false_ne_true]

theorem endErrors_site (w : Walk) (stop position : Position) :
    (w.site stop).endErrors position =
      (if w.nested then some (Recovery.unclosed position) else none).toList := by
  rw [Site.endErrors, show (w.site stop).nested = w.nested from rfl]
  split <;> rfl

/-- Dropping the tokens of a block one by one drops what `Recovery.skipBlock` drops. -/
theorem run_of_skipping (stop : Position) (tokens : List Token) {depth : Nat}
    (hmode : w.mode = .skipping depth) :
    ∃ mode, w.run stop tokens =
      (w.grown [] w.arena (Recovery.skipBlock stop w.nested depth tokens).1.toList mode).runBehind
        stop (Recovery.skipBlock stop w.nested depth tokens).2 := by
  induction tokens generalizing w depth with
  | nil =>
    have hend : w.step stop [] = w.atEnd stop [] := rfl
    refine ⟨w.mode, (run_atEnd hend).trans ?_⟩
    rw [endErrors_site, Recovery.skipBlock]
  | cons token rest ih =>
    by_cases hinput : token.kind = .endOfInput
    · refine ⟨w.mode, (run_atEnd (step_of_skipped_endOfInput hmode hinput)).trans ?_⟩
      simp only [endErrors_site, Recovery.skipBlock, hinput]
    by_cases hleft : token.kind = .leftBrace
    · rw [run_of_step (step_of_skipped_leftBrace hmode hleft)]
      simp only [Recovery.skipBlock, hleft]
      exact ih rfl
    by_cases hright : token.kind = .rightBrace
    · simp only [Recovery.skipBlock, hright]
      cases hinside : w.nested && decide (depth = 0) with
      | true =>
        rw [Bool.and_eq_true, decide_eq_true_eq] at hinside
        obtain ⟨hnested, hdepth⟩ := hinside
        refine ⟨w.mode, ?_⟩
        rw [run_of_step (step_of_skipped_closed hmode hright hnested hdepth), if_pos rfl]
        simp [grown, runBehind, hnested]
      | false =>
        rw [run_of_step (step_of_skipped_rightBrace hmode hright hinside)]
        simp only [Bool.false_eq_true, if_false]
        exact ih rfl
    · rw [run_of_step (step_of_skipped hmode hinput hleft hright)]
      simp only [Recovery.skipBlock]
      exact ih hmode

section items

variable {c : Arena} {item : Sketch} {inside : List SyntaxError} {token found : Token}
variable {next rest : List Token} {mode' : Mode}

theorem grown_report (e : SyntaxError) :
    (w.report e).grown items b errors mode = w.grown items b (e :: errors) mode := by
  simp [grown, report]

/-- The walk when a statement was read in which there were errors. -/
def behind (w : Walk) (item : Sketch) (c : Arena) (inside : List SyntaxError) : Walk :=
  add item { w with arena := c, errors := w.errors ++ inside }

theorem grown_behind :
    (w.behind item c inside).grown items b errors mode =
      w.grown (item :: items) b (inside ++ errors) mode := by
  simp [grown, behind, add]

theorem grown_fail (e : SyntaxError) :
    (fail e { w with arena := c, errors := w.errors ++ inside }).grown items b errors mode =
      w.grown (.failed (w.errors ++ inside).length :: items) b (inside ++ e :: errors) mode := by
  simp [grown, add, fail, report]

theorem runBehind_of_ends (hmode : w.mode = .reading) (ends : Ends tokens next) :
    ((w.enter token).grown items c inside mode').runBehind stop tokens =
      (w.behind (.block token.position (w.arena.openTable (some w.block.table)).1 items) c
        inside).run stop next := by
  have hnested : ((w.enter token).grown items c inside mode').nested = true := by
    simp [nested, grown, enter]
  rw [runBehind, hnested, if_pos rfl, leave_of_ends rfl ends]
  simp [behind, grown, enter, hmode]

theorem runBehind_of_goes (hmode : w.mode = .reading)
    (goes : Statement.endsBefore found.kind = false) :
    ((w.enter token).grown items c inside mode').runBehind stop (found :: rest) =
      (fail (.expected .endOfStatement found)
        { w with arena := c, errors := w.errors ++ inside }).run stop
          (Recovery.resync w.nested (found :: rest)) := by
  have hnested : ((w.enter token).grown items c inside mode').nested = true := by
    simp [nested, grown, enter]
  rw [runBehind, hnested, if_pos rfl, leave_of_goes rfl goes, giveUp_of_goes rfl]
  simp only [grown, enter, hmode]
  rfl

end items

/-- Reading a body takes a walk from the front of its tokens to the tokens behind them,
with the statements of the body. -/
theorem run_of_bodyReads (h : BodyReads site a tokens body left b errors)
    (hmode : w.mode = .reading) (hsite : w.site stop = site) (harena : w.arena = a) :
    ∃ items mode, Sketch.fillAll Sketch.nulls items = body ∧
      w.run stop tokens = (w.grown items b errors mode).runBehind stop left := by
  induction h generalizing w with
  | ended =>
    subst hsite harena
    exact ⟨[], w.mode, Sketch.fillAll_nil, run_atEnd rfl⟩
  | stopped hkind =>
    subst hsite harena
    exact ⟨[], w.mode, Sketch.fillAll_nil, run_atEnd (step_of_stopped hmode hkind)⟩
  | blank hkind _ ih =>
    rw [run_of_step (step_of_blank hmode hkind)]
    exact ih hmode hsite harena
  | closed hkind hnested =>
    subst hsite harena
    refine ⟨[], w.mode, Sketch.fillAll_nil, ?_⟩
    rw [run_of_step (step_of_closed hmode hkind hnested)]
    have hgrown : w.grown [] w.arena [] w.mode = w := by simp [grown]
    rw [hgrown, runBehind, show w.nested = true from hnested, if_pos rfl]
  | @stray _ _ _ token _ _ _ _ hkind hroot _ ih =>
    subst hsite
    rw [run_of_step (step_of_stray hmode hkind hroot)]
    obtain ⟨items, mode, hitems, hrun⟩ := ih (w := w.report (.unmatched token)) hmode rfl harena
    refine ⟨items, mode, hitems, hrun.trans ?_⟩
    rw [grown_report]
  | @leaf _ _ _ token rest _ statement _ _ hleaf hread _ ih =>
    subst hsite harena
    let r := Statement.read (w.site stop) w.arena token rest
    rw [run_of_step (step_of_startsLeaf hmode hleaf), take_of_ok hread]
    have hbehind : add (.leaf statement) { w with arena := r.arena } =
        w.behind (.leaf statement) r.arena [] := by simp [behind]
    obtain ⟨items, mode, hitems, hrun⟩ :=
      ih (w := w.behind (.leaf statement) r.arena []) hmode rfl rfl
    refine ⟨.leaf statement :: items, mode, by simp [hitems], ?_⟩
    rw [hbehind, hrun, grown_behind]
    rfl
  | @leafFailed _ _ _ token rest _ e _ _ hleaf hread hgoes _ ih =>
    subst hsite harena
    let r := Statement.read (w.site stop) w.arena token rest
    rw [run_of_step (step_of_startsLeaf hmode hleaf), take_of_error hread, giveUp_of_goes hgoes]
    obtain ⟨items, mode, hitems, hrun⟩ := ih (w := fail e { w with arena := r.arena }) hmode rfl rfl
    refine ⟨.failed w.errors.length :: items, mode, by simp [hitems, Sketch.nulls], hrun.trans ?_⟩
    simp [grown, add, fail, report]
  | @leafAborted _ _ token rest e hleaf hread haborts =>
    subst hsite harena
    let r := Statement.read (w.site stop) w.arena token rest
    rw [run_of_step (step_of_startsLeaf hmode hleaf), take_of_error hread, giveUp_of_aborts haborts]
    obtain ⟨mode, hrun⟩ := run_of_skipping stop r.rest
      (w := { fail e { w with arena := r.arena } with mode := .skipping 0 }) rfl
    refine ⟨[.failed w.errors.length], mode, by simp [Sketch.nulls], hrun.trans ?_⟩
    simp [grown, add, fail, report]
    rfl
  | @block _ _ b _ token _ _ _ _ _ _ inside _ hkind _ ends _ ihinner ihouter =>
    subst hsite harena
    obtain ⟨inner, mode', hinner, hrun⟩ := ihinner (w := w.enter token) hmode rfl rfl
    let whole := Sketch.block token.position (w.arena.openTable (some w.block.table)).1 inner
    obtain ⟨items, mode, hitems, hrun'⟩ := ihouter (w := w.behind whole b inside) hmode rfl rfl
    refine ⟨whole :: items, mode, by simp [whole, hinner, hitems, Walk.site], ?_⟩
    rw [run_of_step (step_of_leftBrace hmode hkind), hrun, runBehind_of_ends hmode ends, hrun',
      grown_behind]
  | @blockFailed _ _ b _ token found _ _ _ _ _ inside _ hkind _ goes _ ihinner ihouter =>
    subst hsite harena
    obtain ⟨inner, mode', hinner, hrun⟩ := ihinner (w := w.enter token) hmode rfl rfl
    obtain ⟨items, mode, hitems, hrun'⟩ :=
      ihouter (w := fail (.expected .endOfStatement found)
        { w with arena := b, errors := w.errors ++ inside }) hmode rfl rfl
    refine ⟨.failed (w.errors ++ inside).length :: items, mode, by simp [hitems, Sketch.nulls], ?_⟩
    rw [run_of_step (step_of_leftBrace hmode hkind), hrun, runBehind_of_goes hmode goes]
    exact hrun'.trans (by rw [grown_fail])

/-- A walk over all tokens of a program ends with its tree. -/
theorem run_start (cursor : Cursor) :
    let w := start.run cursor.closing.position cursor.ahead
    (Program.ofTokens cursor).1 = { root := w.block.fill Sketch.nulls, arena := w.arena } ∧
      (Program.ofTokens cursor).2.1 = w.errors := by
  obtain ⟨items, mode, hitems, hrun⟩ :=
    run_of_bodyReads (w := start) (Program.bodyReads_ofTokens cursor) rfl rfl rfl
  simp only [hrun, runBehind]
  have hroot : (start.grown items (Program.ofTokens cursor).1.arena
      (Program.ofTokens cursor).2.1 mode).nested = false := rfl
  rw [hroot, if_neg Bool.false_ne_true]
  constructor
  · simp only [grown, start, OpenBlock.fill, List.nil_append, hitems]
    rfl
  · rfl

end correspondence

end Walk

end LineScript
