import LineScript.Proofs.Reading.Moves

/-!
# Walks that differ in a mark

The marks of a walk are the numbers of errors, each of them in the tree at most once
(`Walk.Marked`). So a mark says which error left a null statement, and other statements
can be put in its place: a walk with the mark and a walk that has read these statements
instead are alike (`Walk.Alike`). From there on they take the same steps, and their
trees and their errors differ in that one place only.
-/

namespace LineScript

/-! ## Marks -/

namespace Sketch

mutual

/-- The marks of a sketch, from front to back. -/
def marks : Sketch → List Nat
  | .failed error => [error]
  | .leaf _ => []
  | .block _ _ body => marksAll body

def marksAll : List Sketch → List Nat
  | [] => []
  | sketch :: later => sketch.marks ++ marksAll later

end

@[simp] theorem marksAll_nil : marksAll [] = [] := by
  simp only [marksAll]

@[simp] theorem marksAll_concat {sketches : List Sketch} {last : Sketch} :
    marksAll (sketches ++ [last]) = marksAll sketches ++ last.marks := by
  induction sketches with
  | nil => simp [marksAll]
  | cons sketch sketches ih => simp [marksAll, ih]

mutual

/-- Only what is put in the place of its marks changes a sketch. -/
theorem fill_congr {leave leave' : Nat → List Statement} :
    ∀ {sketch : Sketch}, (∀ n ∈ sketch.marks, leave n = leave' n) →
      sketch.fill leave = sketch.fill leave'
  | .failed n, h => by
    rw [fill_failed, fill_failed]
    exact h n (by simp [marks])
  | .leaf _, _ => by rw [fill_leaf, fill_leaf]
  | .block _ _ body, h => by
    rw [fill_block, fill_block, fillAll_congr (by simpa only [marks] using h)]

theorem fillAll_congr {leave leave' : Nat → List Statement} :
    ∀ {sketches : List Sketch}, (∀ n ∈ marksAll sketches, leave n = leave' n) →
      fillAll leave sketches = fillAll leave' sketches
  | [], _ => by rw [fillAll_nil, fillAll_nil]
  | sketch :: later, h => by
    simp only [marksAll, List.mem_append] at h
    rw [fillAll_cons, fillAll_cons, fill_congr fun n hn => h n (.inl hn),
      fillAll_congr fun n hn => h n (.inr hn)]

end

/-- The statements instead of what the error of this number left. -/
def instead (n : Nat) (statements : List Statement) : Nat → List Statement :=
  fun m => if m = n then statements else [.null]

@[simp] theorem instead_self {n : Nat} {statements : List Statement} :
    instead n statements n = statements :=
  if_pos rfl

theorem instead_of_ne {n m : Nat} {statements : List Statement} (h : m ≠ n) :
    instead n statements m = nulls m :=
  if_neg h

end Sketch

namespace Walk

variable {w v w' : Walk} {stop : Position} {token : Token} {tokens rest : List Token}
variable {e : SyntaxError} {sketch : Sketch}

/-- The marks of open blocks, from the outermost block inwards. -/
def openMarks : List OpenBlock → List Nat
  | [] => []
  | block :: outer => openMarks outer ++ Sketch.marksAll block.body

/-- The marks of a walk are numbers of its errors, in their order. -/
def Marked (w : Walk) : Prop :=
  (openMarks (w.block :: w.outer)).Sublist (List.range w.errors.length)

namespace Marked

theorem start : Marked start := by
  simp [Marked, openMarks, Walk.start]

theorem report (h : w.Marked) (e : SyntaxError) : (w.report e).Marked := by
  refine List.Sublist.trans h ?_
  simp only [report_errors, List.length_append, List.length_singleton, List.range_succ]
  exact List.sublist_append_left _ _

theorem addLeaf (h : w.Marked) (statement : Statement) : (w.add (.leaf statement)).Marked := by
  simpa [Marked, openMarks, add, Sketch.marks] using h

theorem fail (h : w.Marked) (e : SyntaxError) : (w.fail e).Marked := by
  simp only [Marked, openMarks, fail_errors, fail_outer, List.length_append, List.length_singleton,
    List.range_succ]
  simp only [Walk.fail, Walk.report, add, Sketch.marksAll_concat, Sketch.marks,
    ← List.append_assoc]
  exact List.Sublist.append h (List.Sublist.refl _)

theorem giveUp (h : w.Marked) (e : SyntaxError) (tokens : List Token) :
    (w.giveUp e tokens).1.Marked := by
  unfold Walk.giveUp
  split
  · exact h.fail e
  · exact h.fail e

theorem enter (h : w.Marked) (token : Token) : (w.enter token).Marked := by
  simpa [Marked, openMarks, Walk.enter] using h

theorem leave (h : w.Marked) (tokens : List Token) : (w.leave tokens).1.Marked := by
  unfold Walk.leave
  split
  case h_1 => exact h
  case h_2 parent outer houter =>
    have hback : Marked { w with mode := .reading, block := parent, outer } := by
      refine List.Sublist.trans ?_ h
      simp only [openMarks, houter]
      exact List.sublist_append_left _ _
    have hwhole : Marked (add (.block w.block.position w.block.table w.block.body)
        { w with mode := .reading, block := parent, outer }) := by
      simpa [Marked, openMarks, houter, add, Sketch.marks] using h
    dsimp only
    split
    · exact hwhole
    · split
      · exact hwhole
      · split
        · exact hwhole
        · exact hback.giveUp _ _

theorem take (h : w.Marked) (stop : Position) (token : Token) (rest : List Token) :
    (w.take stop token rest).1.Marked := by
  have hgrown (b : Arena) : Marked { w with arena := b } := h
  unfold Walk.take
  dsimp only
  split
  · exact (hgrown _).addLeaf _
  · exact (hgrown _).giveUp _ _

theorem step (h : w.Marked) {p : Walk × List Token} (hstep : w.step stop tokens = some p) :
    p.1.Marked := by
  cases stepsTo_of_step hstep with
  | misses => exact (h.report _).leave _
  | passes => exact h
  | closes => exact h.leave _
  | strays => exact h.report _
  | opens => exact h.enter _
  | takes => exact h.take stop _ _

theorem run (h : w.Marked) (stop : Position) (tokens : List Token) :
    (w.run stop tokens).Marked := by
  fun_induction Walk.run stop w tokens with
  | case1 => exact h
  | case2 w tokens p hstep ih => exact ih (h.step hstep)

theorem move {look : Option Token} (h : w.Marked) (hmove : Moves w token tokens look v) :
    v.Marked := by
  have hstep := hmove.steps .start look.toList (by cases look <;> simp)
  exact h.step hstep

/-- A walk over whole lines stays marked. -/
theorem exists_passes (h : w.Marked) (hlines : Token.WholeLines tokens) :
    ∃ v, w.Passes tokens v ∧ Since w tokens v [] ∧ v.Marked := by
  let P (u : Walk) (left : List Token) : Prop := Since w tokens u left ∧ u.Marked
  have hmoves {u first later left look v} (hmove : Moves u first later look v)
      (hlook : ∀ next ∈ look, left.head? = some next)
      (hu : P u (first :: (later ++ left))) : P v left :=
    ⟨hu.1.move hmove hlook, hu.2.move hmove⟩
  exact Walk.exists_passes hmoves hlines ⟨.refl w tokens, h⟩

/-- No mark stands in the innermost block twice. -/
theorem nodup (h : w.Marked) : (Sketch.marksAll w.block.body).Nodup :=
  ((List.sublist_append_right _ _).trans h).nodup List.nodup_range

/-- What is put in the place of later marks makes no difference. -/
theorem fill_eq (h : w.Marked) {f : Nat → List Statement}
    (hf : ∀ n < w.errors.length, f n = Sketch.nulls n) :
    w.block.fill f = w.block.fill Sketch.nulls ∧
      w.outer.map (OpenBlock.fill f) = w.outer.map (OpenBlock.fill Sketch.nulls) := by
  have hblocks : ∀ blocks : List OpenBlock, (∀ n ∈ openMarks blocks, f n = Sketch.nulls n) →
      blocks.map (OpenBlock.fill f) = blocks.map (OpenBlock.fill Sketch.nulls) := by
    intro blocks hmarks
    induction blocks with
    | nil => rfl
    | cons block outer ih =>
      simp only [openMarks, List.mem_append] at hmarks
      rw [List.map_cons, List.map_cons, ih fun n hn => hmarks n (.inl hn)]
      simp only [OpenBlock.fill, Sketch.fillAll_congr fun n hn => hmarks n (.inr hn)]
  have hall := hblocks (w.block :: w.outer) fun n hn => hf n (List.mem_range.mp (h.subset hn))
  rw [List.map_cons, List.map_cons] at hall
  exact List.cons.inj hall

end Marked

/-! ## Alike walks -/

/-- The first walk with `f` in the place of its marks is the second one, and both have
found the same errors since they had found `before` and `before'`. -/
structure Alike (f : Nat → List Statement) (before before' : List SyntaxError) (w w' : Walk) :
    Prop where
  block : w.block.fill f = w'.block.fill Sketch.nulls
  outer : w.outer.map (OpenBlock.fill f) = w'.outer.map (OpenBlock.fill Sketch.nulls)
  arena : w.arena = w'.arena
  errors : ∃ later, w.errors = before ++ later ∧ w'.errors = before' ++ later

/-- Alike walks in front of the same tokens. -/
structure Alongside (f : Nat → List Statement) (before before' : List SyntaxError)
    (p p' : Walk × List Token) : Prop extends Alike f before before' p.1 p'.1 where
  mode : p.1.mode = p'.1.mode
  tokens : p.2 = p'.2

namespace Alike

variable {f : Nat → List Statement} {before before' : List SyntaxError}
variable (h : Alike f before before' w w')

include h

theorem table_eq : w.block.table = w'.block.table :=
  congrArg Block.table h.block

theorem length_outer : w.outer.length = w'.outer.length := by
  have hlength := congrArg List.length h.outer
  rwa [List.length_map, List.length_map] at hlength

theorem nested_eq : w.nested = w'.nested := by
  rw [nested, nested, h.length_outer]

theorem site_eq (stop : Position) : w.site stop = w'.site stop := by
  rw [site, site, h.table_eq, h.length_outer]

theorem add {sketch sketch' : Sketch} (hsketch : sketch.fill f = sketch'.fill Sketch.nulls) :
    Alike f before before' (w.add sketch) (w'.add sketch') where
  block := by
    have hblock := h.block
    simp only [OpenBlock.fill, Block.mk.injEq] at hblock
    simp [OpenBlock.fill, Walk.add, hblock, hsketch]
  outer := h.outer
  arena := h.arena
  errors := h.errors

theorem report (e : SyntaxError) : Alike f before before' (w.report e) (w'.report e) where
  block := h.block
  outer := h.outer
  arena := h.arena
  errors := by
    obtain ⟨later, herrors, herrors'⟩ := h.errors
    exact ⟨later ++ [e], by simp [herrors], by simp [herrors']⟩

theorem enter (token : Token) : Alike f before before' (w.enter token) (w'.enter token) where
  block := by
    simp only [Walk.enter, OpenBlock.fill, h.arena, h.table_eq, Sketch.fillAll_nil]
  outer := by
    simp only [Walk.enter, List.map_cons, h.block, h.outer]
  arena := by
    simp only [Walk.enter, h.arena, h.table_eq]
  errors := h.errors

section later

variable (hf : ∀ n, before.length ≤ n → f n = Sketch.nulls n)

include hf

theorem fail (e : SyntaxError) : Alike f before before' (w.fail e) (w'.fail e) := by
  refine report (add h ?_) e
  obtain ⟨later, herrors, -⟩ := h.errors
  rw [Sketch.fill_failed, Sketch.fill_failed, hf _ (by simp [herrors])]
  rfl

theorem giveUp (hmode : w.mode = w'.mode) (e : SyntaxError) (tokens : List Token) :
    Alongside f before before' (w.giveUp e tokens) (w'.giveUp e tokens) := by
  cases haborts : e.abortsBlock with
  | true =>
    rw [giveUp_of_aborts haborts, giveUp_of_aborts haborts]
    exact ⟨⟨(h.fail hf e).block, (h.fail hf e).outer, h.arena, (h.fail hf e).errors⟩, rfl, rfl⟩
  | false =>
    rw [giveUp_of_goes haborts, giveUp_of_goes haborts]
    exact ⟨h.fail hf e, hmode, by rw [h.nested_eq]⟩

theorem leave (hnested : w.nested = true) (tokens : List Token) :
    Alongside f before before' (w.leave tokens) (w'.leave tokens) := by
  obtain ⟨parent, outer, houter⟩ := List.exists_cons_of_ne_nil (nested_iff.mp hnested)
  obtain ⟨parent', outer', houter'⟩ :=
    List.exists_cons_of_ne_nil (nested_iff.mp (h.nested_eq ▸ hnested))
  have hparents := h.outer
  rw [houter, houter', List.map_cons, List.map_cons] at hparents
  obtain ⟨hparent, hrest⟩ := List.cons.inj hparents
  have hback : Alike f before before' { w with mode := .reading, block := parent, outer }
      { w' with mode := .reading, block := parent', outer := outer' } :=
    ⟨hparent, hrest, h.arena, h.errors⟩
  have hblock := h.block
  simp only [OpenBlock.fill, Block.mk.injEq] at hblock
  obtain ⟨next, ends⟩ | ⟨found, rest, rfl, goes⟩ := ends_or_goes tokens
  · rw [leave_of_ends houter ends, leave_of_ends houter' ends]
    exact ⟨hback.add (by simp [hblock]), rfl, rfl⟩
  · rw [leave_of_goes houter goes, leave_of_goes houter' goes]
    exact hback.giveUp hf rfl _ _

theorem take (hmode : w.mode = w'.mode) (stop : Position) (token : Token) (rest : List Token) :
    Alongside f before before' (w.take stop token rest) (w'.take stop token rest) := by
  unfold Walk.take
  rw [h.site_eq stop, h.arena]
  generalize Statement.read (w'.site stop) w'.arena token rest = r
  have hgrown : Alike f before before' { w with arena := r.arena } { w' with arena := r.arena } :=
    ⟨h.block, h.outer, rfl, h.errors⟩
  dsimp only
  split
  · exact ⟨hgrown.add (by simp), hmode, rfl⟩
  · exact hgrown.giveUp hf hmode _ _

theorem atEnd (position : Position) (tokens : List Token) :
    (w.atEnd position tokens = none ∧ w'.atEnd position tokens = none) ∨
      ∃ p p', w.atEnd position tokens = some p ∧ w'.atEnd position tokens = some p' ∧
        Alongside f before before' p p' := by
  have hnested' := h.nested_eq
  unfold Walk.atEnd
  cases hnested : w.nested with
  | false =>
    rw [← hnested', hnested]
    exact .inl ⟨rfl, rfl⟩
  | true =>
    rw [← hnested', hnested]
    exact .inr ⟨_, _, rfl, rfl, (h.report (Recovery.unclosed position)).leave hf hnested tokens⟩

/-- Walks that are alike both end, or both go on and are still alike. -/
theorem step (hmode : w.mode = w'.mode) (stop : Position) (tokens : List Token) :
    (w.step stop tokens = none ∧ w'.step stop tokens = none) ∨
      ∃ p p', w.step stop tokens = some p ∧ w'.step stop tokens = some p' ∧
        Alongside f before before' p p' := by
  cases tokens with
  | nil => exact h.atEnd hf stop []
  | cons token rest =>
    cases hreading : w.mode with
    | reading =>
      have hreading' : w'.mode = .reading := hmode ▸ hreading
      by_cases hblank : token.kind = .newline ∨ token.kind = .hash
      · exact .inr ⟨_, _, step_of_blank hreading hblank, step_of_blank hreading' hblank, h, hmode,
          rfl⟩
      by_cases hinput : token.kind = .endOfInput
      · rw [step_of_stopped hreading hinput, step_of_stopped hreading' hinput]
        exact h.atEnd hf token.position (token :: rest)
      by_cases hleft : token.kind = .leftBrace
      · exact .inr ⟨_, _, step_of_leftBrace hreading hleft, step_of_leftBrace hreading' hleft,
          h.enter token, hmode, rfl⟩
      by_cases hright : token.kind = .rightBrace
      · cases hnested : w.nested with
        | true =>
          have hnested' : w'.nested = true := h.nested_eq ▸ hnested
          exact .inr ⟨_, _, step_of_closed hreading hright hnested,
            step_of_closed hreading' hright hnested', h.leave hf hnested rest⟩
        | false =>
          have hnested' : w'.nested = false := h.nested_eq ▸ hnested
          exact .inr ⟨_, _, step_of_stray hreading hright hnested,
            step_of_stray hreading' hright hnested', h.report _, hmode, rfl⟩
      · rw [not_or] at hblank
        have hleaf : token.StartsLeaf := ⟨hblank.1, hblank.2, hinput, hleft, hright⟩
        exact .inr ⟨_, _, step_of_startsLeaf hreading hleaf, step_of_startsLeaf hreading' hleaf,
          h.take hf hmode stop token rest⟩
    | skipping depth =>
      have hskipping' : w'.mode = .skipping depth := hmode ▸ hreading
      have hother (mode : Mode) :
          Alike f before before' { w with mode } { w' with mode } :=
        ⟨h.block, h.outer, h.arena, h.errors⟩
      by_cases hinput : token.kind = .endOfInput
      · rw [step_of_skipped_endOfInput hreading hinput,
          step_of_skipped_endOfInput hskipping' hinput]
        exact h.atEnd hf token.position rest
      by_cases hleft : token.kind = .leftBrace
      · exact .inr ⟨_, _, step_of_skipped_leftBrace hreading hleft,
          step_of_skipped_leftBrace hskipping' hleft, hother _, rfl, rfl⟩
      by_cases hright : token.kind = .rightBrace
      · cases hinside : w.nested && decide (depth = 0) with
        | true =>
          have hinside' := hinside
          rw [h.nested_eq] at hinside'
          rw [Bool.and_eq_true, decide_eq_true_eq] at hinside hinside'
          exact .inr ⟨_, _, step_of_skipped_closed hreading hright hinside.1 hinside.2,
            step_of_skipped_closed hskipping' hright hinside'.1 hinside'.2,
            h.leave hf hinside.1 rest⟩
        | false =>
          have hinside' := hinside
          rw [h.nested_eq] at hinside'
          exact .inr ⟨_, _, step_of_skipped_rightBrace hreading hright hinside,
            step_of_skipped_rightBrace hskipping' hright hinside', hother _, rfl, rfl⟩
      · exact .inr ⟨_, _, step_of_skipped hreading hinput hleft hright,
          step_of_skipped hskipping' hinput hleft hright, h, hmode, rfl⟩

/-- Walks that are alike stay so. -/
theorem run (hmode : w.mode = w'.mode) (stop : Position) (tokens : List Token) :
    Alike f before before' (w.run stop tokens) (w'.run stop tokens) := by
  fun_induction Walk.run stop w tokens generalizing w' with
  | case1 w tokens hnone =>
    obtain ⟨-, hnone'⟩ | ⟨p, -, hsome, -⟩ := h.step hf hmode stop tokens
    · rw [run_of_step_none hnone']
      exact h
    · rw [hnone] at hsome
      cases hsome
  | case2 w tokens p hsome ih =>
    obtain ⟨hnone, -⟩ | ⟨q, p', hsome', hstep', halong⟩ := h.step hf hmode stop tokens
    · rw [hsome] at hnone
      cases hnone
    · rw [hsome] at hsome'
      cases hsome'
      rw [run_of_step hstep', ← halong.tokens]
      exact ih halong.toAlike halong.mode

/-- At the end of input it does not matter whether tokens were read or dropped. -/
theorem run_nil (stop : Position) :
    Alike f before before' (w.run stop []) (w'.run stop []) := by
  have hstep (u : Walk) : u.step stop [] = u.atEnd stop [] := rfl
  obtain ⟨hnone, hnone'⟩ | ⟨p, p', hsome, hsome', halong⟩ := h.atEnd hf stop []
  · rw [run_of_step_none ((hstep w).trans hnone), run_of_step_none ((hstep w').trans hnone')]
    exact h
  · rw [run_of_step ((hstep w).trans hsome), run_of_step ((hstep w').trans hsome'), halong.tokens]
    exact halong.toAlike.run hf halong.mode stop _

end later

end Alike

/-! ## A mended walk -/

/-- The walk with statements behind those that were read before. -/
def mended (statements : List Statement) (b : Arena) (w : Walk) : Walk :=
  { w with
    block := { w.block with body := w.block.body ++ statements.map .leaf }
    arena := b }

theorem mended_nil (w : Walk) : w.mended [] w.arena = w := by
  simp [mended]

section mended

variable {statements : List Statement} {b : Arena}

theorem fillAll_leaves : Sketch.fillAll Sketch.nulls (statements.map .leaf) = statements := by
  induction statements with
  | nil => simp
  | cons statement statements ih => simp [ih]

/-- A walk in which a statement failed is alike to one that has read others instead. -/
theorem alike_fail (h : w.Marked) (e : SyntaxError) :
    Alike (Sketch.instead w.errors.length statements) (w.errors ++ [e]) w.errors
      (fail e { w with arena := b }) (w.mended statements b) := by
  obtain ⟨hblock, houter⟩ :=
    h.fill_eq (f := Sketch.instead w.errors.length statements)
      fun n hn => Sketch.instead_of_ne (Nat.ne_of_lt hn)
  simp only [OpenBlock.fill, Block.mk.injEq] at hblock
  refine ⟨?_, houter, rfl, [], by simp, by simp [mended]⟩
  simp [OpenBlock.fill, mended, fail, report, add, hblock, fillAll_leaves]

/-- From a failed statement on, a walk is alike to the one that is mended there. -/
theorem later_instead (e : SyntaxError) :
    ∀ n, (w.errors ++ [e]).length ≤ n →
      Sketch.instead w.errors.length statements n = Sketch.nulls n := by
  intro n hn
  rw [List.length_append, List.length_singleton] at hn
  exact Sketch.instead_of_ne (by omega)

end mended

/-- The errors of alike walks differ in the one that the mark belongs to. -/
theorem Alike.eraseIdx {f : Nat → List Statement} {before : List SyntaxError}
    (h : Alike f (before ++ [e]) before w w') :
    w'.errors = w.errors.eraseIdx before.length := by
  obtain ⟨later, herrors, herrors'⟩ := h.errors
  rw [herrors, herrors', List.append_assoc, List.eraseIdx_append_of_length_le (Nat.le_refl _)]
  simp

end Walk

end LineScript
