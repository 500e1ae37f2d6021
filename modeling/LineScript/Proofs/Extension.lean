import LineScript.Proofs.Layout
import LineScript.Proofs.LexicalScoping

/-!
# Later lines

What lines mean does not change when others are put behind them. A walk over lines
without errors ends outside of every block, reading, and the lines behind them are read
from there (`Program.exists_passes_parse`): they add statements to the root block and
tables and symbols to the arena. A run of the longer program does at first what a run
of the shorter one does, and afterwards it only writes and reports more
(`Dynamic.runAll_grows`).
-/

namespace LineScript

/-! ## Longer runs -/

namespace Dynamic

variable {s t : State} {body later : List Statement}

theorem runAll_append (s : State) (body later : List Statement) :
    runAll s (body ++ later) = (runAll s body).bind fun t => runAll t later := by
  induction body generalizing s with
  | nil => simp [runAll]
  | cons statement body ih =>
    simp only [List.cons_append, runAll, Option.bind_assoc]
    exact congrArg _ (funext fun t => ih t)

/-- The second state has written and reported what the first one has, and maybe more. -/
structure State.Grows (s t : State) : Prop where
  output : ∃ more, t.output = s.output ++ more
  errors : s.errors <+: t.errors

namespace State.Grows

variable {u : State}

theorem of_eq (houtput : t.output = s.output) (herrors : t.errors = s.errors) : s.Grows t :=
  ⟨⟨ByteArray.empty, by simp [houtput]⟩, herrors ▸ List.prefix_rfl⟩

theorem trans (hst : s.Grows t) (htu : t.Grows u) : s.Grows u where
  output := by
    obtain ⟨more, hmore⟩ := hst.output
    obtain ⟨more', hmore'⟩ := htu.output
    exact ⟨more ++ more', by rw [hmore', hmore, ByteArray.append_assoc]⟩
  errors := hst.errors.trans htu.errors

theorem report (s : State) (position : Position) : s.Grows (s.report position) :=
  ⟨⟨ByteArray.empty, by simp [State.report]⟩, List.prefix_append _ _⟩

theorem attempt {α : Type} {base : State} {position : Position} {result : Except Failure α}
    {next : α → State} (h : base.attempt position result next = some t)
    (hbase : s.Grows base) (hnext : ∀ x, s.Grows (next x)) : s.Grows t := by
  cases result with
  | ok x =>
    cases h
    exact hnext x
  | error failure =>
    cases failure with
    | overflow =>
      cases h
      exact hbase.trans (report base position)
    | stuck => cases h

/-- Leaving a block changes neither the output nor the errors. -/
theorem leave (h : s.leave = some t) : s.Grows t ∧ t.Grows s := by
  unfold State.leave at h
  split at h
  · cases h
  · cases h
    exact ⟨of_eq rfl rfl, of_eq rfl rfl⟩

end State.Grows

mutual

theorem run_grows : ∀ (statement : Statement) {s t : State}, run s statement = some t → s.Grows t
  | .null, s, t, h => by
    cases h
    exact .of_eq rfl rfl
  | .declare _ name _ kind none, s, t, h => by
    cases h
    exact .of_eq rfl rfl
  | .declare _ name _ kind (some e), s, t, h => by
    rw [run] at h
    exact .attempt h (.of_eq rfl rfl) fun _ => .of_eq rfl rfl
  | .assign _ name _ compound e, s, t, h => by
    rw [run] at h
    exact .attempt h (.of_eq rfl rfl) fun _ => .of_eq rfl rfl
  | .print _ newline payload, s, t, h => by
    rw [run] at h
    exact .attempt h (.of_eq rfl rfl) fun text => ⟨⟨text.toUTF8, rfl⟩, List.prefix_rfl⟩
  | .block _ _ body, s, t, h => by
    rw [run] at h
    obtain ⟨u, hbody, hleave⟩ := Option.bind_eq_some_iff.mp h
    have henter : s.Grows s.enter := .of_eq rfl rfl
    exact (henter.trans (runAll_grows body hbody)).trans (State.Grows.leave hleave).1

theorem runAll_grows : ∀ (body : List Statement) {s t : State},
    runAll s body = some t → s.Grows t
  | [], s, t, h => by
    cases h
    exact .of_eq rfl rfl
  | statement :: rest, s, t, h => by
    rw [runAll] at h
    obtain ⟨u, hfirst, hrest⟩ := Option.bind_eq_some_iff.mp h
    exact (run_grows statement hfirst).trans (runAll_grows rest hrest)

end

/-- A program that begins with the statements of another one does what that one does,
and then more. -/
theorem runProgram_grows {p q : Program} {s t : State} (hbody : p.root.body <+: q.root.body)
    (hp : runProgram p = some s) (hq : runProgram q = some t) : s.Grows t := by
  obtain ⟨later, hlater⟩ := hbody
  obtain ⟨u, hu, hs⟩ := Option.bind_eq_some_iff.mp hp
  obtain ⟨v, hv, ht⟩ := Option.bind_eq_some_iff.mp hq
  rw [← hlater, runAll_append, hu, Option.bind_some] at hv
  exact ((State.Grows.leave hs).2.trans (runAll_grows later hv)).trans (State.Grows.leave ht).1

end Dynamic

/-! ## Longer texts -/

namespace Walk

variable {w : Walk}

/-- Outside of every block a walk goes on like a reading of the tokens. -/
theorem run_of_root (hmode : w.mode = .reading) (houter : w.outer = []) (stop : Position)
    (tokens : List Token) :
    ∃ items body left b errors mode,
      BodyReads (w.site stop) w.arena tokens body left b errors ∧
        w.run stop tokens = w.grown items b errors mode := by
  have hreads := bodyReads_readBody (w.site stop) w.arena tokens
  obtain ⟨items, mode, -, hrun⟩ := run_of_bodyReads hreads hmode rfl rfl
  refine ⟨items, _, _, _, _, mode, hreads, hrun.trans ?_⟩
  exact if_neg (by simp [nested, grown, houter])

end Walk

namespace Program

variable {lines later : List String}

/-- A walk over lines without errors ends outside of every block, and with the program
of the lines. -/
theorem exists_passes_parse (h : (parse lines).errors = []) :
    ∃ w, Walk.start.Passes (Cursor.tokensFrom 1 lines) w ∧ w.mode = .reading ∧ w.outer = [] ∧
      w.errors = [] ∧
        (parse lines).program = { root := w.block.fill Sketch.nulls, arena := w.arena } := by
  obtain ⟨w, hpasses, hsince⟩ :=
    Walk.start.exists_passes_of_wholeLines (Cursor.wholeLines_tokensFrom 1 lines)
  obtain ⟨hprogram, herrors⟩ := parse_of_scanned (errors_ofLines_of_parse h)
  have hrun := hpasses (Cursor.ofLines lines).1.closing.position []
  rw [List.append_nil] at hrun
  rw [h, hrun] at herrors
  obtain ⟨hnone, houter, hstays⟩ :=
    Walk.run_nil_of_noErrors (List.map_eq_nil_iff.mp herrors.symm)
  rw [hrun, hstays] at hprogram
  exact ⟨w, hpasses, hsince.awake hnone rfl, houter, hnone, hprogram⟩

theorem errors_ofLines_append (h : (Cursor.ofLines lines).2 = [])
    (hlater : (Cursor.ofLines later).2 = []) : (Cursor.ofLines (lines ++ later)).2 = [] := by
  rw [Cursor.errors_ofLines, Cursor.errorsFrom_eq_nil_iff] at h hlater ⊢
  intro text htext
  exact (List.mem_append.mp htext).elim (h text) (hlater text)

/-- The arena of a program that was read without errors. -/
theorem grown_parse (h : (parse lines).errors = []) :
    Grown (Arena.empty.openTable none).1 (Arena.empty.openTable none).2
        (parse lines).program.arena (parse lines).program.root.body ∧
      (parse lines).program.root.table = (Arena.empty.openTable none).1 := by
  rw [(parse_of_errors_eq_nil h).1]
  exact ⟨grown_ofTokens _, rfl⟩

section append

variable (h : (parse lines).errors = []) (hlater : (Cursor.ofLines later).2 = [])

include h hlater

/-- Later lines only add to the root block and to the arena. -/
theorem parse_append_extends :
    (parse lines).program.root.body <+: (parse (lines ++ later)).program.root.body ∧
      (parse lines).program.arena.Extends (parse (lines ++ later)).program.arena := by
  obtain ⟨w, hpasses, hmode, houter, -, hprogram⟩ := exists_passes_parse h
  have hscanned := errors_ofLines_append (errors_ofLines_of_parse h) hlater
  obtain ⟨hwhole, -⟩ := parse_of_scanned hscanned
  obtain ⟨items, body, left, b, errors, mode, hreads, hrun⟩ :=
    w.run_of_root hmode houter (Cursor.ofLines (lines ++ later)).1.closing.position
      (Cursor.tokensFrom (1 + lines.length) later)
  rw [Cursor.tokensFrom_append, hpasses, hrun] at hwhole
  obtain ⟨hgrown, htable⟩ := grown_parse h
  rw [hprogram] at hgrown htable ⊢
  obtain ⟨t, ht, -⟩ := hgrown.grows.own Arena.table_openTable_new
  have hroot : (w.site (Cursor.ofLines (lines ++ later)).1.closing.position).table =
      (Arena.empty.openTable none).1 := htable
  have hmore := hreads.grown hgrown.wellFormed hgrown.initial (hroot ▸ ht)
  rw [hwhole]
  refine ⟨?_, hmore.grows.toExtends⟩
  simp only [OpenBlock.fill, Walk.grown, Sketch.fillAll_append]
  exact List.prefix_append _ _

/-- Errors of later lines are reported behind the first lines. -/
theorem position_errors_parse_append :
    ∀ e ∈ (parse (lines ++ later)).errors, lines.length < e.position.line := by
  obtain ⟨w, hpasses, hmode, houter, hnone, -⟩ := exists_passes_parse h
  have hscanned := errors_ofLines_append (errors_ofLines_of_parse h) hlater
  obtain ⟨-, herrors⟩ := parse_of_scanned hscanned
  by_cases hempty : later = []
  · subst hempty
    simp [h]
  have hlines : lines ++ later ≠ [] := by simp [hempty]
  obtain ⟨text, -, hclosing⟩ := Cursor.exists_closing_ofLines hlines
  have hlast : 1 + lines.length ≤ (Cursor.ofLines (lines ++ later)).1.closing.position.line := by
    have hlength := List.length_pos_iff.mpr hempty
    simp only [hclosing, Cursor.lineEnd, List.length_append]
    omega
  obtain ⟨found, hfound, hline⟩ := Walk.errors_run_tokensFrom w later hlast
  rw [Cursor.tokensFrom_append, hpasses, hfound, hnone, List.nil_append] at herrors
  intro e he
  rw [herrors] at he
  obtain ⟨e', he', rfl⟩ := List.mem_map.mp he
  have hbehind := hline e' he'
  simp only [Diagnostic.position]
  omega

end append

end Program

namespace Executor

variable {σ : Type} {out : Sink σ} {bytes : σ → ByteArray} {sink : σ} {lines later : List String}

/-- A program that was read without errors writes and reports what its names mean. -/
theorem exists_runProgram_parse (hread : (Program.parse lines).errors = [])
    (hlossless : out.Lossless bytes sink) :
    ∃ final, Dynamic.runProgram (Program.parse lines).program = some final ∧
      bytes (fresh.execute out (Program.parse lines).program sink).sink =
        bytes sink ++ final.output ∧
      (fresh.execute out (Program.parse lines).program sink).executor.errors = final.errors := by
  obtain ⟨hprogram, herrors⟩ := Program.parse_of_errors_eq_nil hread
  rw [hprogram]
  generalize (Cursor.ofLines lines).1 = cursor at herrors ⊢
  obtain ⟨final, hfinal, -, houtput, hreported, -⟩ :=
    execute_of_resolved (Program.wellFormed_ofTokens cursor)
      ((Program.bodyReads_ofTokens cursor).resolved herrors (.outermost _))
      (Program.grown_ofTokens cursor).declared hlossless
  exact ⟨final, hfinal, houtput, hreported⟩

/-- Lines that are put behind others leave the meaning of these as it was. The
statements of the first lines come first, in the root block of the whole, their tables
and symbols are those of the whole, and only later lines can be at fault. If none is,
the run of the whole begins with what the first lines write and report. -/
theorem execute_parse_append (hread : (Program.parse lines).errors = [])
    (hscanned : (Cursor.ofLines later).2 = []) (hlossless : out.Lossless bytes sink) :
    let first := Program.parse lines
    let whole := Program.parse (lines ++ later)
    first.program.root.body <+: whole.program.root.body ∧
      first.program.arena.Extends whole.program.arena ∧
      (∀ e ∈ whole.errors, lines.length < e.position.line) ∧
      (whole.errors = [] →
        (∃ more, bytes (fresh.execute out whole.program sink).sink =
          bytes (fresh.execute out first.program sink).sink ++ more) ∧
        (fresh.execute out first.program sink).executor.errors <+:
          (fresh.execute out whole.program sink).executor.errors) := by
  intro first whole
  obtain ⟨hbody, harena⟩ := Program.parse_append_extends hread hscanned
  refine ⟨hbody, harena, Program.position_errors_parse_append hread hscanned, ?_⟩
  intro hwhole
  obtain ⟨final, hfinal, houtput, hreported⟩ := exists_runProgram_parse hread hlossless
  obtain ⟨final', hfinal', houtput', hreported'⟩ := exists_runProgram_parse hwhole hlossless
  obtain ⟨⟨more, hmore⟩, herrors⟩ := Dynamic.runProgram_grows hbody hfinal hfinal'
  refine ⟨⟨more, ?_⟩, ?_⟩
  · rw [houtput, houtput', hmore, ByteArray.append_assoc]
  · rw [hreported, hreported']
    exact herrors

/-- The first lines report an overflow and print a number. Behind them a block hides
their variable. -/
theorem execute_parse_append_hidden :
    let lines := ["var x number = 9223372036854775807", "x = x + 1", "println x"]
    let later := ["\x7b", "var x string = \"a\"", "println x", "\x7d"]
    let first := Program.parse lines
    let whole := Program.parse (lines ++ later)
    first.errors = [] ∧ (Cursor.ofLines later).2 = [] ∧ whole.errors = [] ∧
      first.program.root.body <+: whole.program.root.body ∧
      first.program.arena.Extends whole.program.arena ∧
      (∃ more, (fresh.execute Buffer.sink whole.program Buffer.unlimited).sink.bytes =
        (fresh.execute Buffer.sink first.program Buffer.unlimited).sink.bytes ++ more) ∧
      (fresh.execute Buffer.sink first.program Buffer.unlimited).executor.errors <+:
        (fresh.execute Buffer.sink whole.program Buffer.unlimited).executor.errors := by
  intro lines later first whole
  have hread : first.errors = [] := by decide +kernel
  have hscanned : (Cursor.ofLines later).2 = [] := by decide +kernel
  have hwhole : whole.errors = [] := by decide +kernel
  obtain ⟨hbody, harena, -, hrun⟩ :=
    execute_parse_append hread hscanned Buffer.lossless_unlimited
  exact ⟨hread, hscanned, hwhole, hbody, harena, hrun hwhole⟩

end Executor

end LineScript
