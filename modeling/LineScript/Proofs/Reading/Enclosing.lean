import LineScript.Proofs.Abandonment
import LineScript.Proofs.Scope.Enclosing

/-!
# Reading inside one more block

A walk in one more block has the same tokens in front of it and sees the same names, so
it does the same, as long as there is no error: at the top level a closing brace and the end of
input are other things than in a block. `Walk.enclosed` is the walk with an empty block
around all others, and `Walk.Anchored.step_enclosed` says that a step without an error leads
from the walk in the block to the walk in the block.
-/

namespace LineScript

/-! ## Trees -/

namespace Statement

mutual

/-- The statement with the handles that its tables have in an enclosed arena. -/
def enclosed : Statement → Statement
  | .block position table body => .block position table.next (enclosedAll body)
  | statement => statement

def enclosedAll : List Statement → List Statement
  | [] => []
  | statement :: rest => statement.enclosed :: enclosedAll rest

end

@[simp] theorem enclosedAll_nil : enclosedAll [] = [] := by
  simp only [enclosedAll]

@[simp] theorem enclosedAll_cons {statement : Statement} {rest : List Statement} :
    enclosedAll (statement :: rest) = statement.enclosed :: enclosedAll rest := by
  simp only [enclosedAll]

@[simp] theorem enclosedAll_append {body later : List Statement} :
    enclosedAll (body ++ later) = enclosedAll body ++ enclosedAll later := by
  induction body with
  | nil => simp
  | cons statement body ih => simp [ih]

end Statement

namespace Sketch

mutual

def enclosed : Sketch → Sketch
  | .failed error => .failed error
  | .leaf statement => .leaf statement.enclosed
  | .block position table body => .block position table.next (enclosedAll body)

def enclosedAll : List Sketch → List Sketch
  | [] => []
  | sketch :: later => sketch.enclosed :: enclosedAll later

end

@[simp] theorem enclosedAll_concat {sketches : List Sketch} {last : Sketch} :
    enclosedAll (sketches ++ [last]) = enclosedAll sketches ++ [last.enclosed] := by
  induction sketches with
  | nil => simp [enclosedAll]
  | cons sketch sketches ih => simp [enclosedAll, ih]

mutual

theorem fill_enclosed : ∀ sketch : Sketch,
    sketch.enclosed.fill nulls = Statement.enclosedAll (sketch.fill nulls)
  | .failed _ => by simp [enclosed, nulls, Statement.enclosed]
  | .leaf _ => by simp [enclosed]
  | .block _ _ body => by simp [enclosed, Statement.enclosed, fillAll_enclosed body]

theorem fillAll_enclosed : ∀ sketches : List Sketch,
    fillAll nulls (enclosedAll sketches) = Statement.enclosedAll (fillAll nulls sketches)
  | [] => by simp [enclosedAll]
  | sketch :: later => by simp [enclosedAll, fill_enclosed sketch, fillAll_enclosed later]

end

end Sketch

/-! ## Leaves -/

/-- The site in one more block. -/
def Site.enclosed (site : Site) : Site :=
  { site with table := site.table.next, depth := site.depth + 1 }

section leaf

variable {site : Site} {a b : Arena} {first : Token} {tokens left : List Token} {t : Table}
variable {statement : Statement}

theorem Site.context_enclosed (ha : a.Layered) (ht : a.table site.table = .ok t) :
    site.enclosed.context a.enclosed = site.context a := by
  simp only [Site.context, Site.enclosed, Arena.resolve?_enclosed ha ht]

theorem LeafReads.enclosed_eq (h : LeafReads site a first tokens statement left b) :
    statement.enclosed = statement := by
  cases h <;> rw [Statement.enclosed] <;> nofun

/-- A statement that holds no statements is read in one more block as it is without. -/
theorem LeafReads.enclosed (h : LeafReads site a first tokens statement left b) (ha : a.Layered)
    (ht : a.table site.table = .ok t) :
    LeafReads site.enclosed a.enclosed first tokens statement left b.enclosed := by
  have hcontext := Site.context_enclosed ha ht
  have hlocal := Arena.getLocal_enclosed ht
  have hresolve := congrFun (Arena.resolve?_enclosed ha ht)
  cases h with
  | declare hfirst hname htype hfree ends =>
    have hdeclares : LeafReads site.enclosed a.enclosed first _ _ left _ :=
      .declare hfirst hname htype ((hlocal _).trans hfree) ends
    simpa only [Site.enclosed, Arena.declare_enclosed] using hdeclares
  | declareValue hfirst hname htype hfree hequals hread ends =>
    rw [← hcontext] at hread ends
    have hdeclares : LeafReads site.enclosed a.enclosed first _ _ left _ :=
      .declareValue hfirst hname htype ((hlocal _).trans hfree) hequals hread ends
    simpa only [Site.enclosed, Arena.declare_enclosed] using hdeclares
  | assign hfirst htarget hop hread ends =>
    rw [← hcontext] at hread ends
    exact .assign hfirst ((hresolve _).trans htarget) hop hread ends
  | print hfirst ends => exact .print hfirst ends
  | printValue hfirst hread ends =>
    rw [← hcontext] at hread ends
    exact .printValue hfirst hread ends

end leaf

/-! ## Walks -/

def OpenBlock.enclosed (block : OpenBlock) : OpenBlock :=
  { block with table := block.table.next, body := Sketch.enclosedAll block.body }

namespace Walk

/-- The walk with an empty block around all blocks, whose table comes first. -/
def enclosed (w : Walk) : Walk :=
  { w with
    block := w.block.enclosed
    outer := w.outer.map OpenBlock.enclosed ++ [{ position := .start, table := ⟨0⟩, body := [] }]
    arena := w.arena.enclosed }

/-- The arena of the walk has the tables of its blocks. -/
structure Anchored (w : Walk) : Prop where
  arena : w.arena.WellFormed
  tables : ∀ block ∈ w.block :: w.outer, ∃ t, w.arena.table block.table = .ok t

variable {w v : Walk} {stop : Position} {first : Token} {rest left : List Token}

theorem Anchored.start : Anchored start where
  arena := Arena.WellFormed.empty.openTable (by simp)
  tables := by
    intro block hblock
    rw [List.mem_singleton.mp hblock]
    exact ⟨_, Arena.table_openTable_new⟩

@[simp] theorem nested_enclosed (w : Walk) : w.enclosed.nested = true := by
  simp [nested, enclosed]

theorem site_enclosed (stop : Position) (w : Walk) : w.enclosed.site stop = (w.site stop).enclosed := by
  simp [site, enclosed, OpenBlock.enclosed, Site.enclosed]

theorem enclosed_add (sketch : Sketch) (w : Walk) :
    (w.add sketch).enclosed = w.enclosed.add sketch.enclosed := by
  simp [enclosed, add, OpenBlock.enclosed]

theorem enclosed_enter (token : Token) (w : Walk) :
    (w.enter token).enclosed = w.enclosed.enter token := by
  simp [enclosed, enter, OpenBlock.enclosed, Arena.openTable_enclosed, Sketch.enclosedAll]

/-- Entering a block at the front of the input. -/
theorem enter_start (hposition : first.position = .start) : start.enter first = start.enclosed := by
  simp only [enter, hposition]
  simp [Walk.start, enclosed, OpenBlock.enclosed, Sketch.enclosedAll, Arena.openTable, Arena.empty,
    Arena.enclosed, TableId.next, Table.enclosed, Table.outermost]

namespace Anchored

theorem enter (h : w.Anchored) (token : Token) : (w.enter token).Anchored := by
  obtain ⟨t, ht⟩ := h.tables w.block List.mem_cons_self
  refine ⟨h.arena.openTable_of_table ht, ?_⟩
  intro block hblock
  obtain rfl | hblock := List.mem_cons.mp hblock
  · exact ⟨_, Arena.table_openTable_new⟩
  · obtain ⟨u, hu⟩ := h.tables block hblock
    exact ⟨u, Arena.table_openTable_of_table hu⟩

theorem leave {parent : OpenBlock} {outer : List OpenBlock} (h : w.Anchored)
    (houter : w.outer = parent :: outer) (sketch : Sketch) :
    Anchored (add sketch { w with mode := .reading, block := parent, outer }) := by
  refine ⟨h.arena, ?_⟩
  intro block hblock
  obtain rfl | hblock := List.mem_cons.mp hblock
  · exact h.tables parent (by simp [houter])
  · have hblock : block ∈ outer := hblock
    exact h.tables block (by simp [houter, hblock])

/-- A statement without statements may have declared a name in the block. -/
theorem take (h : w.Anchored) (hleaf : first.StartsLeaf) (sketch : Sketch) :
    Anchored (add sketch
      { w with arena := (Statement.read (w.site stop) w.arena first rest).arena }) := by
  obtain ⟨t, ht⟩ := h.tables w.block List.mem_cons_self
  have htable : w.arena.table (w.site stop).table = .ok t := ht
  obtain harena | ⟨name, -, kind, -, -, harena⟩ :=
    Statement.read_arena_of_startsLeaf rest hleaf htable
  · rw [harena]
    refine ⟨h.arena, ?_⟩
    intro block hblock
    obtain rfl | hblock := List.mem_cons.mp hblock
    · exact ⟨t, ht⟩
    · exact h.tables block (List.mem_cons_of_mem _ hblock)
  · rw [harena]
    refine ⟨h.arena.declare ht, ?_⟩
    have htables {id : TableId} {u : Table} (hu : w.arena.table id = .ok u) : ∃ u',
        (w.arena.declare w.block.table (.declared name.literal kind)).2.table id = .ok u' := by
      by_cases hid : id = w.block.table
      · rw [hid]
        exact ⟨_, Arena.table_declare_self ht⟩
      · exact ⟨u, (Arena.table_declare_of_ne hid).trans hu⟩
    intro block hblock
    obtain rfl | hblock := List.mem_cons.mp hblock
    · exact htables ht
    · obtain ⟨u, hu⟩ := h.tables block (List.mem_cons_of_mem _ hblock)
      exact htables hu

/-- A step without an error leads to the same place in one more block. -/
theorem step_enclosed (h : w.Anchored) (hmode : w.mode = .reading)
    (hinput : first.kind ≠ .endOfInput) (hstep : w.step stop (first :: rest) = some (v, left))
    (hnone : v.errors = w.errors) :
    v.Anchored ∧ w.enclosed.step stop (first :: rest) = some (v.enclosed, left) := by
  have hmode' : w.enclosed.mode = .reading := hmode
  by_cases hblank : first.kind = .newline ∨ first.kind = .hash
  · rw [step_of_blank hmode hblank] at hstep
    cases hstep
    exact ⟨h, step_of_blank hmode' hblank⟩
  by_cases hleft : first.kind = .leftBrace
  · rw [step_of_leftBrace hmode hleft] at hstep
    cases hstep
    rw [step_of_leftBrace hmode' hleft, enclosed_enter]
    exact ⟨h.enter first, rfl⟩
  by_cases hright : first.kind = .rightBrace
  · obtain ⟨parent, outer, houter, ends, rfl⟩ := closes_of_step hmode hright hstep hnone
    have houter' : w.enclosed.outer = parent.enclosed :: (outer.map OpenBlock.enclosed ++
        [{ position := .start, table := ⟨0⟩, body := [] }]) := by
      simp [enclosed, houter]
    rw [step_of_closed hmode' hright (nested_enclosed w), leave_of_ends houter' ends, enclosed_add]
    exact ⟨h.leave houter _, rfl⟩
  rw [not_or] at hblank
  have hleaf : first.StartsLeaf := ⟨hblank.1, hblank.2, hinput, hleft, hright⟩
  obtain ⟨statement, hread, hrest, rfl⟩ := takes_of_step hmode hleaf hstep hnone
  obtain ⟨t, ht⟩ := h.tables w.block List.mem_cons_self
  have htable : w.arena.table (w.site stop).table = .ok t := ht
  have htable' : w.enclosed.arena.table (w.enclosed.site stop).table = .ok t.enclosed :=
    Arena.table_enclosed ht
  have hreads := (Statement.read_leaf_iff hleaf htable).mp ⟨hread, hrest, rfl⟩
  have hreads' := hreads.enclosed h.arena.layered htable
  rw [← site_enclosed] at hreads'
  obtain ⟨hread', hrest', harena'⟩ := (Statement.read_leaf_iff hleaf htable').mpr hreads'
  refine ⟨h.take hleaf _, ?_⟩
  rw [step_of_startsLeaf hmode' hleaf, take_of_ok hread', harena', hrest', enclosed_add,
    Sketch.enclosed, hreads.enclosed_eq]
  rfl

end Anchored

/-- A walk over whole lines without an error gets to the same place in one more block. -/
theorem exists_passes_enclosed {tokens : List Token} (h : Token.WholeLines tokens) :
    ∃ v, start.Passes tokens v ∧ Since start tokens v [] ∧
      (v.errors = [] → start.enclosed.Passes tokens v.enclosed) := by
  let P (u : Walk) (left : List Token) : Prop := Since start tokens u left ∧
    (u.errors = [] → u.Anchored ∧ ∀ stop more,
      start.enclosed.run stop (tokens ++ more) = u.enclosed.run stop (left ++ more))
  have hmoves {u first later left look v} (hmove : Moves u first later look v)
      (hlook : ∀ next ∈ look, left.head? = some next) (hu : P u (first :: (later ++ left))) :
      P v left := by
    obtain ⟨hsince, hruns⟩ := hu
    refine ⟨hsince.move hmove hlook, fun hnone => ?_⟩
    have hsame : v.errors = u.errors := by
      obtain hsame | ⟨e, he, -⟩ := hmove.errors
      · exact hsame
      · simp [he] at hnone
    have hclean : u.errors = [] := hsame.symm.trans hnone
    obtain ⟨hanchored, hruns⟩ := hruns hclean
    have hinput := h.goesOn first (hsince.ahead List.mem_cons_self)
    have hmode := hsince.awake hclean rfl
    have hstep (stop : Position) (more : List Token) :=
      hanchored.step_enclosed hmode hinput (hmove.steps_behind hlook stop more) hsame
    refine ⟨(hstep .start []).1, fun stop more => ?_⟩
    rw [hruns, List.cons_append, List.append_assoc, run_of_step (hstep stop more).2]
  obtain ⟨v, hpasses, hsince, hruns⟩ :=
    exists_passes hmoves h ⟨.refl start tokens, fun _ => ⟨.start, fun _ _ => rfl⟩⟩
  exact ⟨v, hpasses, hsince, fun hnone => (hruns hnone).2⟩

end Walk

end LineScript
