import LineScript.Proofs.LexicalScoping
import LineScript.Proofs.Scanning.Respacing

/-!
# Programs of one output statement

A source text without a line feed is one line. If an expression stands on it behind the word
`println`, what interpreting the text does hangs on that expression alone: a value is
written with a line end behind it (`interpret_println`), and an error is the only one and
keeps the program from being run (`interpret_println_error`).
-/

namespace LineScript

/-! ## The line -/

namespace Text

variable {text : List Char}

theorem pieces_of_noLineFeed (h : '\n' ∉ text) (hne : text ≠ []) : pieces text = [text] := by
  induction text with
  | nil => exact absurd rfl hne
  | cons c rest ih =>
    rw [List.mem_cons, not_or] at h
    obtain ⟨hc, hrest⟩ := h
    rw [pieces, if_neg (Ne.symm hc)]
    cases rest with
    | nil => rfl
    | cons d rest => rw [ih hrest (List.cons_ne_nil d rest)]

theorem dropWhile_isBlank_of_head (h : ∀ c ∈ text.head?, isBlank c = false) :
    text.dropWhile isBlank = text := by
  cases text with
  | nil => rfl
  | cons c rest => exact List.dropWhile_cons_of_neg (by simp [h c rfl])

theorem trim_of_noMargins (hfirst : ∀ c ∈ text.head?, isBlank c = false)
    (hlast : ∀ c ∈ text.getLast?, isBlank c = false) : trim text = text := by
  rw [trim, trimEnd, dropWhile_isBlank_of_head hfirst, dropWhile_isBlank_of_head,
    List.reverse_reverse]
  rwa [List.head?_reverse]

/-- A text without line feeds and margins is its only line. -/
theorem lines_of_noLineFeed {source : String} (h : '\n' ∉ source.toList) (hne : source ≠ "")
    (hfirst : ∀ c ∈ source.toList.head?, isBlank c = false)
    (hlast : ∀ c ∈ source.toList.getLast?, isBlank c = false) : lines source = [source] := by
  have hchars : source.toList ≠ [] := by simpa using hne
  rw [lines, pieces_of_noLineFeed h hchars, List.map_singleton, trim_of_noMargins hfirst hlast,
    String.ofList_toList]

/-- The line that `println` begins. -/
theorem lines_println {text : String} {last : Char} (h : '\n' ∉ text.toList)
    (hlast : text.toList.getLast? = some last) (hblank : isBlank last = false) :
    lines ("println " ++ text) = ["println " ++ text] := by
  have hchars : ("println " ++ text).toList = "println ".toList ++ text.toList :=
    String.toList_append
  apply lines_of_noLineFeed
  · rw [hchars, List.mem_append, not_or]
    exact ⟨by decide, h⟩
  · intro hempty
    rw [hempty] at hchars
    simp at hchars
  · rw [hchars]
    rintro _ ⟨⟩
    decide
  · rw [hchars, List.getLast?_append, hlast]
    rintro _ ⟨⟩
    exact hblank

theorem isBlank_head_space (text : List Char) :
    ∀ c ∈ (' ' :: text).head?, isBlank c = true := by
  rintro _ ⟨⟩
  decide

end Text

/-- A token that the line ends behind. -/
theorem Scan.Cuts.single {token : Token} (h : token.Scanned) :
    Cuts token.position token.literal.toList [token] := by
  have hend : ∀ c ∈ ([] : List Char).head?, Text.isBlank c = true := by simp
  have hcuts : Cuts token.position (token.literal.toList ++ []) [token] :=
    .of_longest h (longest_of_scanned h hend) (fun _ => rfl) .done
  rwa [List.append_nil] at hcuts

/-- The word that begins an output statement, at the front of its line. -/
def Token.println (line : Nat) : Token :=
  { kind := .keyword .println, literal := "println", position := { line, column := 1 } }

theorem Token.scanned_println (line : Nat) : (println line).Scanned := by
  let d : Definition := ⟨.identifier, .identifier, 1⟩
  have hd : d ∈ Lexicon.definitions := by decide
  have hcomplete : Pattern.identifier.complete "println".toList = true := by decide
  exact ⟨d, hd, hcomplete, ((Lexicon.reclassify_eq_keyword_iff hd).mpr ⟨rfl, rfl⟩).symm⟩

theorem Token.ofLine_println {line : Nat} {text : String} {tokens : List Token}
    (h : Scan.Cuts { line, column := 9 } text.toList tokens) :
    Token.ofLine line ("println " ++ text) = .ok (println line :: tokens) := by
  have hlater : Scan.Cuts { line, column := 1 + "println".length } (' ' :: text.toList) tokens :=
    .blank (by decide) h
  have hlongest : Scan.Longest "println".toList ("println".toList ++ ' ' :: text.toList) :=
    Scan.longest_of_scanned (scanned_println line) (Text.isBlank_head_space text.toList)
  have hcuts : Scan.Cuts { line, column := 1 } ("println".toList ++ ' ' :: text.toList) _ :=
    .of_longest (scanned_println line) hlongest nofun hlater
  have hword : "println ".toList = "println".toList ++ [' '] := by decide
  refine Scan.scan_of_cuts ?_
  rw [String.toList_append, hword, List.append_assoc]
  exact hcuts

/-! ## The tree -/

/-- The expression on a line, with any names in scope: the reader that its first token asks for
gives the outcome and leaves the line end. -/
def Expr.ReadsLine (tokens : List Token) (outcome : Except SyntaxError Expr) : Prop :=
  ∀ (names : String → Option Arena.Binding) (stop : Position) (newline : Token),
    newline.kind = .newline →
      ∃ kind, Context.kindOf? ⟨names, stop⟩ (Token.frontOf stop (tokens ++ [newline])) =
          .ok (some kind) ∧
        (Expr.reader names kind stop (tokens ++ [newline])).Gives outcome [newline]

section println

variable {first newline : Token} {tokens : List Token} {e : SyntaxError} {value : Expr}

theorem Statement.readUnfinished_println (site : Site) (a : Arena)
    {outcome : Except SyntaxError Expr} (hfirst : first.kind = .keyword .println)
    (hnewline : newline.kind = .newline) (h : Expr.ReadsLine tokens outcome) :
    (readUnfinished site a first (tokens ++ [newline])).Gives
        (outcome.map fun e => .print first.position true (some e)) [newline] ∧
      (readUnfinished site a first (tokens ++ [newline])).arena = a := by
  obtain ⟨kind, hkind, hread⟩ := h (a.resolve? site.table) site.stop newline hnewline
  have hprint : (printReader (a.resolve? site.table) first.position true site.stop
      (tokens ++ [newline])).Gives _ _ :=
    printReader_of_value (Statement.endsBefore_of_kindOf? hkind) hkind hread
  simp only [readUnfinished, hfirst]
  exact ⟨⟨hprint.outcome_eq, hprint.rest_eq⟩, rfl⟩

theorem Walk.run_println (hfirst : first.kind = .keyword .println)
    (hnewline : newline.kind = .newline) (h : Expr.ReadsLine tokens (.ok value))
    (stop : Position) :
    start.run stop (first :: (tokens ++ [newline])) =
      start.add (.leaf (.print first.position true (some value))) := by
  have hleaf : first.StartsLeaf := by simp [Token.StartsLeaf, hfirst]
  obtain ⟨hgives, harena⟩ :=
    Statement.readUnfinished_println (start.site stop) start.arena hfirst hnewline h
  obtain ⟨hread, harena⟩ := Statement.read_gives hleaf
    (Statement.finish_of_ends hgives (.line hnewline)) harena
  rw [run_of_step (step_of_startsLeaf rfl hleaf), take_of_ok hread.outcome_eq, harena,
    hread.rest_eq]
  exact run_nil_of_root rfl

theorem Walk.run_println_error (hfirst : first.kind = .keyword .println)
    (hnewline : newline.kind = .newline) (h : Expr.ReadsLine tokens (.error e))
    (hgoes : e.abortsBlock = false) (stop : Position) :
    start.run stop (first :: (tokens ++ [newline])) = start.fail e := by
  have hleaf : first.StartsLeaf := by simp [Token.StartsLeaf, hfirst]
  obtain ⟨hgives, harena⟩ :=
    Statement.readUnfinished_println (start.site stop) start.arena hfirst hnewline h
  obtain ⟨hread, harena⟩ := Statement.read_gives hleaf (Statement.finish_of_error hgives) harena
  rw [run_of_step (step_of_startsLeaf rfl hleaf), take_of_error hread.outcome_eq, harena,
    hread.rest_eq, giveUp_of_goes hgoes]
  have hresync : Recovery.resync start.nested [newline] = [] := by
    simp [Recovery.resync, hnewline]
  rw [hresync]
  exact run_nil_of_root rfl

end println

namespace Program

variable {line : String} {tokens : List Token} {e : SyntaxError} {value : Expr}

/-- The tree of one output statement. -/
def ofPrintln (value : Expr) : Program :=
  { root :=
      { position := .start
        table := (Arena.empty.openTable none).1
        body := [.print { line := 1, column := 1 } true (some value)] }
    arena := (Arena.empty.openTable none).2 }

theorem parse_of_ofLine (h : Token.ofLine 1 line = .ok tokens) :
    let w := Walk.start.run (Cursor.ofLines [line]).1.closing.position
      (tokens ++ [Cursor.newlineOf 1 line])
    (parse [line]).program = { root := w.block.fill Sketch.nulls, arena := w.arena } ∧
      (parse [line]).errors = w.errors.map .grammar := by
  have herror : Cursor.lineError? 1 line = none := Cursor.lineError?_eq_none_iff.mpr ⟨tokens, h⟩
  have hscanned : (Cursor.ofLines [line]).2 = [] := by
    rw [Cursor.errors_ofLines, Cursor.errorsFrom_cons, herror]
    rfl
  have hparse := parse_of_scanned hscanned
  rwa [Cursor.tokensFrom_cons, Cursor.tokensFrom_nil, List.append_nil,
    Cursor.lineTokens_of_ok h] at hparse

theorem parse_println (h : Token.ofLine 1 line = .ok (.println 1 :: tokens))
    (hread : Expr.ReadsLine tokens (.ok value)) :
    (parse [line]).program = ofPrintln value ∧ (parse [line]).errors = [] := by
  obtain ⟨hprogram, herrors⟩ := parse_of_ofLine h
  rw [hprogram, herrors, List.cons_append, Walk.run_println rfl rfl hread]
  refine ⟨?_, rfl⟩
  simp only [ofPrintln, OpenBlock.fill, Walk.add, Walk.start, List.nil_append,
    Sketch.fillAll_cons, Sketch.fill_leaf, Sketch.fillAll_nil, List.append_nil]
  rfl

theorem parse_println_error (h : Token.ofLine 1 line = .ok (.println 1 :: tokens))
    (hread : Expr.ReadsLine tokens (.error e)) (hgoes : e.abortsBlock = false) :
    (parse [line]).errors = [.grammar e] := by
  obtain ⟨-, herrors⟩ := parse_of_ofLine h
  rw [herrors, List.cons_append, Walk.run_println_error rfl rfl hread hgoes]
  rfl

end Program

/-! ## The run -/

namespace Interpretation

variable {σ : Type}

/-- The source was read and run without an error. -/
structure Succeeds (i : Interpretation σ) : Prop where
  errors_eq : i.errors = []
  fault_eq : i.fault = none

/-- The source was read and run without an error, and exactly the text was written. -/
structure Prints (i : Interpretation σ) (bytes : σ → ByteArray) (sink : σ) (text : String) : Prop
    extends i.Succeeds where
  bytes_eq : bytes i.sink = bytes sink ++ text.toUTF8

/-- The source has this error and no other, and nothing was written. -/
structure Rejects (i : Interpretation σ) (sink : σ) (e : SyntaxError) : Prop where
  errors_eq : i.errors = [.grammar e]
  fault_eq : i.fault = none
  sink_eq : i.sink = sink

theorem Rejects.not_succeeds {i : Interpretation σ} {sink : σ} {e : SyntaxError}
    (h : i.Rejects sink e) : ¬ i.Succeeds := by
  intro hsucceeds
  have herrors := h.errors_eq
  rw [hsucceeds.errors_eq] at herrors
  cases herrors

end Interpretation

section run

variable {σ : Type} {out : Sink σ} {bytes : σ → ByteArray} {start sink : σ} {e : Expr} {v : Value}

theorem encodeAll_printed (text : String) :
    encodeAll (Statement.printed true text) = (text ++ "\n").toUTF8 := by
  simp [encodeAll, Statement.printed]

/-- A value is written with a line end behind it. -/
theorem Statement.runAll_println (table : TableId) (position : Position) {s : State σ}
    (hlossless : out.Lossless bytes start) (hsink : out.Accepts start s.sink)
    (heval : ∀ scene, e.eval scene = .ok v) :
    let effect := runAll out table s [.print position true (some e)]
    effect.halt = none ∧ effect.errors = [] ∧ out.Accepts start effect.state.sink ∧
      bytes effect.state.sink = bytes s.sink ++ (v.text ++ "\n").toUTF8 := by
  intro effect
  have hdeed : (Statement.print position true (some e)).deed s.arena table =
      .ok { arena := s.arena, texts := printed true v.text } := by
    simp only [deed, Option.elim_some, heval]
    rfl
  have hrun : (Statement.print position true (some e)).run out table s = _ := run_leaf rfl
  rw [hdeed] at hrun
  obtain ⟨hnone, haccepts, hbytes⟩ :=
    State.writeAll_of_lossless (s := { s with position }) hlossless hsink (printed true v.text)
  rw [encodeAll_printed] at hbytes
  have hhalt : ((Statement.print position true (some e)).run out table s).halt = none := by
    rw [hrun]
    exact hnone
  have heffect : effect = _ := runAll_of_goes (congrArg Halt.stops hhalt)
  simp only [heffect, runAll, Effect.noted, hhalt, Halt.errors, List.append_nil]
  rw [hrun]
  exact ⟨trivial, rfl, haccepts, hbytes⟩

theorem Executor.execute_ofPrintln (hlossless : out.Lossless bytes sink)
    (heval : ∀ scene, e.eval scene = .ok v) :
    let run := fresh.execute out (Program.ofPrintln e) sink
    run.fault = none ∧ run.executor.errors = [] ∧
      bytes run.sink = bytes sink ++ (v.text ++ "\n").toUTF8 := by
  intro run
  let begun : State σ := (Program.ofPrintln e).start fresh sink
  obtain ⟨hnone, herrors, haccepts, hbytes⟩ := Statement.runAll_println (s := begun)
    (Program.ofPrintln e).root.table .start hlossless .idle heval
  have htable : begun.arena.table (Program.ofPrintln e).root.table =
      .ok { parent := none, locals := [] } := rfl
  obtain ⟨hhalt, hnoted, -, hwritten⟩ := runRoot_of_halt_none hlossless htable haccepts hnone
  obtain ⟨hfault, hexecuted, -, hsink⟩ := execute_of_halt_none hhalt
  exact ⟨hfault, hexecuted.trans (hnoted.trans herrors),
    (congrArg bytes hsink).trans (hwritten.trans hbytes)⟩

end run

section interpret

variable {σ : Type} {out : Sink σ} {bytes : σ → ByteArray} {sink : σ} {text : String}
variable {tokens : List Token}

/-- A source that is `println` and an expression prints the value of the expression. -/
theorem interpret_println {value : Expr} {v : Value} (hlossless : out.Lossless bytes sink)
    (hlines : Text.lines ("println " ++ text) = ["println " ++ text])
    (hcuts : Scan.Cuts { line := 1, column := 9 } text.toList tokens)
    (hread : Expr.ReadsLine tokens (.ok value)) (heval : ∀ scene, value.eval scene = .ok v) :
    (interpret out sink ("println " ++ text)).Prints bytes sink (v.text ++ "\n") := by
  obtain ⟨hprogram, herrors⟩ := Program.parse_println (Token.ofLine_println hcuts) hread
  have hok : (Program.parse ["println " ++ text]).isOk = true := by
    rw [Parsed.isOk, herrors]
    rfl
  obtain ⟨hfault, hnoted, hbytes⟩ := Executor.execute_ofPrintln hlossless heval
  simp only [interpret, hlines, hok, if_true, hprogram]
  exact ⟨⟨by rw [hnoted]; rfl, hfault⟩, hbytes⟩

/-- An error of the expression keeps the source from being run. -/
theorem interpret_println_error {e : SyntaxError}
    (hlines : Text.lines ("println " ++ text) = ["println " ++ text])
    (hcuts : Scan.Cuts { line := 1, column := 9 } text.toList tokens)
    (hread : Expr.ReadsLine tokens (.error e)) (hgoes : e.abortsBlock = false) :
    (interpret out sink ("println " ++ text)).Rejects sink e := by
  have herrors := Program.parse_println_error (Token.ofLine_println hcuts) hread hgoes
  have hok : (Program.parse ["println " ++ text]).isOk = false := by
    rw [Parsed.isOk, herrors]
    rfl
  simp only [interpret, hlines, hok, Bool.false_eq_true, if_false]
  exact ⟨herrors, rfl, rfl⟩

end interpret

end LineScript
