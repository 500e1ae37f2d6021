import LineScript.Command
import LineScript.Proofs.Command.Paths
import LineScript.Proofs.Indentation

/-!
# What the command leaves in a directory

The command writes at most two files, the outline and the listing of the program, and writes
them beside the script. No run breaks off before that: every program that was read has an
outline and a listing, also after it was run (`Dump.exists_text`). The two files are never one
and the same, and no other file is touched. The script itself can be one of them only if its
name has the extension of a dump that is asked for (`execute_spares`). Such a script is lost
(`execute_overwrites_script`).
-/

namespace LineScript

/-! ## Listings -/

namespace Arena

variable {a b : Arena} {history : List Change}

theorem exists_mapM {α β : Type} {f : α → Except Fault β} {xs : List α}
    (h : ∀ x ∈ xs, ∃ y, f x = .ok y) : ∃ ys, xs.mapM f = .ok ys := by
  induction xs with
  | nil => exact ⟨[], rfl⟩
  | cons x xs ih =>
    obtain ⟨y, hy⟩ := h x List.mem_cons_self
    obtain ⟨ys, hys⟩ := ih fun x hx => h x (List.mem_cons_of_mem _ hx)
    exact ⟨y :: ys, by simp only [List.mapM_cons, hy, hys, bind, Except.bind, pure, Except.pure]⟩

theorem Built.exists_listing (h : Built history a) : ∃ text, a.listing = .ok text := by
  have hrooted := h.orderly.wellFormed.layered.rooted
  have hlines : ∀ id ∈ a.tableIds, ∃ lines, a.tableLines id = .ok lines := by
    intro id hid
    obtain ⟨i, hi, rfl⟩ := List.mem_map.mp hid
    have hcontains : a.contains ⟨i⟩ = true := decide_eq_true (List.mem_range.mp hi)
    obtain ⟨chain, hchain⟩ := hrooted.exists_ancestry hcontains
    obtain ⟨t, ht⟩ := exists_table_of_contains hcontains
    obtain ⟨symbols, hsymbols, -⟩ := h.orderly.locals_eq ht
    obtain ⟨tables, htables⟩ : ∃ tables, (a.chain ⟨i⟩).mapM a.table = .ok tables := by
      rw [hrooted.chain_eq hchain]
      exact exists_mapM fun outer houter => exists_table_of_contains (hchain.contains houter)
    unfold tableLines depth
    rw [htables, hsymbols]
    exact ⟨_, rfl⟩
  obtain ⟨lines, hlines⟩ := exists_mapM hlines
  rw [listing, hlines]
  exact ⟨_, rfl⟩

/-- Stores update the symbols of an arena. -/
theorem Stores.exists_built {targets : List Statement.Target} (h : Stores targets a b)
    (hbuilt : Built history a) : ∃ history', Built history' b := by
  induction h generalizing history with
  | done => exact ⟨history, hbuilt⟩
  | skip _ ih => exact ih hbuilt
  | store hsees _ ih =>
    obtain ⟨⟨s, hs, -⟩, -⟩ := hsees
    refine ih (.updating hbuilt ?_ (update_eq_stored hs))
    exact fun _ => rfl

end Arena

theorem Executor.exists_built_of_executed {p q : Program} (h : p.Executed q)
    (hp : ∃ history, Arena.Built history p.arena) : ∃ history, Arena.Built history q.arena := by
  induction h with
  | start => exact hp
  | again _ out x sink ih =>
    obtain ⟨history, hbuilt⟩ := ih
    exact (Executor.stores_execute out x _ sink).2.exists_built hbuilt

/-- Interpreting a text runs the program that was read once or not at all. -/
theorem executed_interpret {σ : Type} (out : Sink σ) (sink : σ) (source : String) :
    (Program.parse (Text.lines source)).program.Executed (interpret out sink source).program := by
  unfold interpret
  simp only
  split
  · exact .again .start ..
  · exact .start

namespace Command

/-! ## Dumps -/

/-- What the command can write about a program. -/
inductive Dump where
  | outline
  | listing

namespace Dump

def extension : Dump → String
  | .outline => "kab-ast"
  | .listing => "kab-symbols"

def wanted (o : Options) : Dump → Bool
  | .outline => o.ast
  | .listing => o.symbols

def text (p : Program) : Dump → Except Fault String
  | .outline => p.outline ""
  | .listing => p.arena.listing

/-- Where the dump goes if the script is a file. -/
def path (o : Options) (dump : Dump) : String :=
  withExtension o.contents dump.extension

theorem slash_not_mem_extension (dump : Dump) : '/' ∉ dump.extension.toList := by
  cases dump <;> decide

/-- Programs that were read have both dumps, before and after they were run. -/
theorem exists_text {source : String} {p : Program}
    (h : (Program.parse (Text.lines source)).program.Executed p) (dump : Dump) :
    ∃ text, dump.text p = .ok text := by
  cases dump with
  | outline =>
    obtain ⟨lines, -, -, houtline⟩ := Program.uniform_outline_of_executed h
    exact ⟨_, houtline ""⟩
  | listing =>
    obtain ⟨history, hbuilt⟩ :=
      Executor.exists_built_of_executed h (Program.exists_built_parse _)
    exact hbuilt.exists_listing

end Dump

/-! ## Actions -/

/-- The second directory comes out of the first by some of the actions: files change only where
an action saves a text, and then they hold the text. -/
structure Saves (actions : List Action) (d e : Directory) : Prop where
  folders : d.SameFolders e
  find? : ∀ place, e.find? place = d.find? place ∨
    ∃ path text, .save path text ∈ actions ∧ d.locate path = .ok place ∧
      d.isFolder place = false ∧ e.find? place = some text.toUTF8

theorem Saves.cons {actions : List Action} {d e : Directory} (h : Saves actions d e)
    (action : Action) : Saves (action :: actions) d e where
  folders := h.folders
  find? place := by
    obtain hsame | ⟨path, text, hmem, hsaved⟩ := h.find? place
    · exact .inl hsame
    · exact .inr ⟨path, text, List.mem_cons_of_mem _ hmem, hsaved⟩

theorem Saves.write {actions : List Action} {d changed e : Directory} {path text : String}
    (hwrite : d.write path text.toUTF8 = .ok changed) (h : Saves actions changed e) :
    Saves (.save path text :: actions) d e := by
  obtain ⟨written, hlocate, hfile, hfolders, hfind⟩ := Directory.exists_of_write hwrite
  refine ⟨hfolders.trans h.folders, fun place => ?_⟩
  obtain hsame | ⟨path', text', hmem, hlocate', hfile', hsaved⟩ := h.find? place
  · rw [hfind] at hsame
    split at hsame
    case isTrue hplace =>
      subst hplace
      exact .inr ⟨path, text, List.mem_cons_self, hlocate, hfile, hsame⟩
    case isFalse => exact .inl hsame
  · rw [hfolders.isFolder] at hfile'
    exact .inr ⟨path', text', List.mem_cons_of_mem _ hmem,
      hfolders.symm.locate hlocate', hfile', hsaved⟩

theorem saves_perform (level : Level) (d : Directory) (actions : List Action) :
    Saves actions d (perform level d actions).directory := by
  induction actions generalizing d with
  | nil => exact ⟨.refl d, fun _ => .inl rfl⟩
  | cons action rest ih =>
    cases action with
    | log event => exact (ih d).cons _
    | say line => exact (ih d).cons _
    | save path text =>
      rw [perform]
      cases hwrite : d.write path text.toUTF8 with
      | error refusal => exact ⟨.refl d, fun _ => .inl rfl⟩
      | ok changed => exact .write hwrite (ih changed)

namespace Options

variable {o : Options} {p : Program}

/-- The dumps are the only texts that actions save. -/
def SavesDumps (o : Options) (p : Program) (actions : List Action) : Prop :=
  ∀ ⦃path text⦄, .save path text ∈ actions → o.file = true ∧ ∃ dump : Dump,
    dump.wanted o = true ∧ path = dump.path o ∧
      ∃ content, dump.text p = .ok content ∧ text = content ++ "\n"

theorem exists_dump (o : Options) (dump : Dump) (h : ∃ text, dump.text p = .ok text) :
    ∃ actions, o.dump (dump.wanted o) dump.extension (dump.text p) = .ok actions ∧
      o.SavesDumps p actions := by
  obtain ⟨content, hcontent⟩ := h
  unfold Options.dump
  split
  case isFalse => exact ⟨[], rfl, fun path text hmem => by cases hmem⟩
  case isTrue hwanted =>
    rw [hcontent]
    refine ⟨_, rfl, fun path text hmem => ?_⟩
    rw [List.mem_singleton] at hmem
    split at hmem
    case isFalse => cases hmem
    case isTrue hfile =>
      cases hmem
      exact ⟨hfile, dump, hwanted, rfl, content, hcontent, rfl⟩

theorem exists_plan (o : Options) (h : ∀ dump : Dump, ∃ text, dump.text p = .ok text)
    (output : ByteArray) (log : List Event) (errors : List Diagnostic) :
    ∃ report, o.plan p output log errors = .ok report ∧ o.SavesDumps p report.actions := by
  obtain ⟨outline, houtline, hsaves⟩ := o.exists_dump .outline (h .outline)
  obtain ⟨listing, hlisting, hsaves'⟩ := o.exists_dump .listing (h .listing)
  refine ⟨⟨output, log.map .log ++ outline ++ listing ++ errors.map fun e => .say e.message,
    errors.isEmpty⟩, ?_, fun path text hmem => ?_⟩
  · simp only [Dump.wanted, Dump.extension, Dump.text] at houtline hlisting
    simp only [plan, houtline, hlisting, bind, Except.bind, pure, Except.pure]
  · simp only [List.mem_append, List.mem_map, reduceCtorEq, and_false, exists_false, false_or,
      or_false] at hmem
    exact hmem.elim (fun hmem => hsaves hmem) fun hmem => hsaves' hmem

/-- The command always comes to a report, and its dumps are those of the program that
interpreting the script leaves. -/
theorem exists_report (o : Options) (script : String) :
    ∃ report, o.report script = .ok report ∧
      o.SavesDumps (interpret Buffer.sink Buffer.unlimited script).program report.actions := by
  have hdumps := Dump.exists_text (executed_interpret Buffer.sink Buffer.unlimited script)
  unfold report
  unfold interpret at hdumps ⊢
  simp only at hdumps ⊢
  split at hdumps
  case isTrue hok =>
    obtain ⟨-, hfault, -⟩ := Executor.execute_of_sound
      (Program.sound_parse (Text.lines script)) Buffer.sink Executor.fresh Buffer.unlimited
    rw [if_pos hok, if_pos hok, hfault]
    exact o.exists_plan hdumps ..
  case isFalse hok =>
    rw [if_neg hok, if_neg hok]
    exact o.exists_plan hdumps ..

/-! ## What is spared -/

/-- What a run of the command with these options may do to a directory. -/
structure Spares (o : Options) (d e : Directory) : Prop where
  folders : d.SameFolders e
  /-- A file that is new or changed holds a dump of the script that was asked for. -/
  changed : ∀ ⦃place⦄, e.find? place ≠ d.find? place →
    o.file = true ∧ d.isFolder place = false ∧ ∃ script, d.readText o.contents = .ok script ∧
      ∃ dump : Dump, dump.wanted o = true ∧ d.locate (dump.path o) = .ok place ∧
        ∃ text, dump.text (interpret Buffer.sink Buffer.unlimited script).program = .ok text ∧
          e.find? place = some (text ++ "\n").toUTF8
  /-- The two dumps do not lead to the same file, only to the same folder. -/
  apart : ∀ ⦃place⦄, d.locate (Dump.outline.path o) = .ok place →
    d.locate (Dump.listing.path o) = .ok place →
    d.isFolder place = true ∧ e.find? place = d.find? place
  /-- The script stays as it is, unless it has the extension of a dump that is asked for. -/
  script : o.file = true →
    (∀ dump : Dump, dump.wanted o = true → ¬ Bears o.contents dump.extension) →
    e.read o.contents = d.read o.contents

theorem Spares.refl (o : Options) (d : Directory) : o.Spares d d where
  folders := .refl d
  changed _ hne := absurd rfl hne
  apart _ h h' :=
    ⟨isFolder_of_locate (Dump.slash_not_mem_extension .outline)
      (Dump.slash_not_mem_extension .listing) (by decide) h h', rfl⟩
  script _ _ := rfl

theorem spares_of_saves {d e : Directory} {actions : List Action} {script : String}
    (hscript : o.file = true → d.readText o.contents = .ok script)
    (hdumps : o.SavesDumps (interpret Buffer.sink Buffer.unlimited script).program actions)
    (h : Saves actions d e) : o.Spares d e := by
  have hchanged {place : Place} (hne : e.find? place ≠ d.find? place) :
      o.file = true ∧ d.isFolder place = false ∧ ∃ dump : Dump, dump.wanted o = true ∧
        d.locate (dump.path o) = .ok place ∧
        ∃ text, dump.text (interpret Buffer.sink Buffer.unlimited script).program = .ok text ∧
          e.find? place = some (text ++ "\n").toUTF8 := by
    obtain hsame | ⟨path, text, hmem, hlocate, hfile, hsaved⟩ := h.find? place
    · exact absurd hsame hne
    · obtain ⟨hmode, dump, hwanted, rfl, content, hcontent, rfl⟩ := hdumps hmem
      exact ⟨hmode, hfile, dump, hwanted, hlocate, content, hcontent, hsaved⟩
  refine ⟨h.folders, ?_, ?_, ?_⟩
  · intro place hne
    obtain ⟨hmode, hfile, hdump⟩ := hchanged hne
    exact ⟨hmode, hfile, script, hscript hmode, hdump⟩
  · intro place houtline hlisting
    have hfolder := ((Spares.refl o d).apart houtline hlisting).1
    refine ⟨hfolder, by_contra fun hne => ?_⟩
    obtain ⟨-, hfile, -⟩ := hchanged hne
    simp [hfolder] at hfile
  · intro hmode hbears
    obtain ⟨place, bytes, hlocate, hfind⟩ := Directory.exists_of_readText (hscript hmode)
    have hsame : e.find? place = d.find? place := by
      by_contra hne
      obtain ⟨-, hfile, dump, hwanted, hdump, -⟩ := hchanged hne
      exact hbears dump hwanted
        (bears_of_locate dump.slash_not_mem_extension hlocate hdump hfile)
    rw [Directory.read_of_find? hlocate hfind,
      Directory.read_of_find? (h.folders.locate hlocate) (hsame.trans hfind)]

theorem exists_execute (o : Options) (d : Directory) :
    ∃ outcome, o.execute d = .ok outcome ∧ o.Spares d outcome.directory := by
  unfold Options.execute
  simp only
  split
  case h_1 => exact ⟨_, rfl, .refl o d⟩
  case h_2 script hscript =>
    obtain ⟨report, hreport, hdumps⟩ := o.exists_report script
    rw [hreport]
    refine ⟨_, rfl, spares_of_saves (fun hfile => ?_) hdumps (saves_perform ..)⟩
    rwa [if_pos hfile] at hscript

end Options

/-- However the arguments are read, and whatever they and the directory are, the command comes to
an end, keeps all folders and changes no files but the dumps of the script that are asked for,
which are two files. The script is not changed unless its name has the extension of one of these
dumps. All this is about directories without links: a dump that was a link to the script would
lead to the script under a name of its own. -/
theorem execute_spares (reader : List String → Request) (d : Directory) (arguments : List String) :
    ∃ outcome, execute reader d arguments = .ok outcome ∧
      (∀ o, reader arguments = .run o → o.Spares d outcome.directory) ∧
      ((∀ o, reader arguments ≠ .run o) → outcome.directory = d) := by
  unfold execute
  cases hrequest : reader arguments with
  | run o =>
    obtain ⟨outcome, hexecute, hspares⟩ := o.exists_execute d
    refine ⟨outcome, hexecute, ?_, fun hnone => absurd rfl (hnone o)⟩
    rintro _ ⟨⟩
    exact hspares
  | version => exact ⟨_, rfl, by simp, fun _ => rfl⟩
  | help => exact ⟨_, rfl, by simp, fun _ => rfl⟩
  | misuse => exact ⟨_, rfl, by simp, fun _ => rfl⟩

/-- A script with the extension of the outline, outside of the working directory, of which only
the listing is asked for. The file that held another listing is replaced. -/
theorem execute_spares_script :
    let d : Directory :=
      { working := ["home"]
        folders := [["d"]]
        files := [(["d", "x.kab-ast"], "var n number = 2\n".toUTF8),
          (["d", "x.kab-symbols"], "old".toUTF8)] }
    let o : Options :=
      { file := true, ast := false, symbols := true, verbosity := 0, contents := "/d/x.kab-ast" }
    Request.ofArguments ["-fs", "/d/x.kab-ast"] = .run o ∧
      d.read "/d/x.kab-ast" = .ok "var n number = 2\n".toUTF8 ∧
      (∀ dump : Dump, dump.wanted o = true → ¬ Bears o.contents dump.extension) ∧
      ∃ outcome, execute Request.ofArguments d ["-fs", "/d/x.kab-ast"] = .ok outcome ∧
        o.Spares d outcome.directory ∧
        outcome.directory.read "/d/x.kab-ast" = d.read "/d/x.kab-ast" := by
  intro d o
  have hrequest : Request.ofArguments ["-fs", "/d/x.kab-ast"] = .run o := by decide
  have hbears : ∀ dump : Dump, dump.wanted o = true → ¬ Bears o.contents dump.extension := by
    intro dump hwanted hbears
    obtain ⟨folder, stem, hpath, -⟩ := hbears
    cases dump with
    | outline => cases hwanted
    | listing =>
      have hsuffix : ".kab-symbols".toList <:+ "/d/x.kab-ast".toList :=
        ⟨folder ++ stem, (List.append_assoc ..).trans hpath.symm⟩
      exact absurd hsuffix (by decide)
  obtain ⟨outcome, hexecute, hspares, -⟩ :=
    execute_spares Request.ofArguments d ["-fs", "/d/x.kab-ast"]
  exact ⟨hrequest, by decide +kernel, hbears, outcome, hexecute, hspares o hrequest,
    (hspares o hrequest).script rfl hbears⟩

/-- A script that runs well and is then replaced by its own outline. -/
theorem execute_overwrites_script :
    let d : Directory :=
      { working := ["home"]
        folders := []
        files := [(["home", "x.kab-ast"], "println 1\n".toUTF8)] }
    d.read "x.kab-ast" = .ok "println 1\n".toUTF8 ∧
      (execute Request.ofArguments d ["-fa", "x.kab-ast"]).map (fun outcome =>
        (outcome.exitCode, outcome.output, outcome.directory.read "x.kab-ast")) =
          .ok (0, "1\n".toUTF8, .ok ("\n".intercalate ["Program", "  Block", "    Statements",
            "      PrintlnStatement", "        NumExpression", "          Term",
            "            Factor", "              Signed number: '1'", ""]).toUTF8) := by
  decide +kernel

end Command

end LineScript
