import LineScript.Command.Directory
import LineScript.Command.Report

/-!
# The command

The command as a function on directories: what it prints, how it exits, and what
it leaves in the directory.
-/

namespace LineScript.Command

structure Outcome where
  exitCode : Nat
  output : ByteArray
  errorText : String
  directory : Directory

/-- What actions leave: text on standard error, a directory, and whether all of
them could be performed. -/
structure Performed where
  errorText : String
  directory : Directory
  complete : Bool

/-- An event as text on standard error. -/
def logText (level : Level) (event : Event) : String :=
  if event.isShown level then event.line ++ "\n" else ""

def perform (level : Level) (d : Directory) : List Action → Performed
  | [] => { errorText := "", directory := d, complete := true }
  | .log event :: rest =>
    let later := perform level d rest
    { later with errorText := logText level event ++ later.errorText }
  | .say line :: rest =>
    let later := perform level d rest
    { later with errorText := line ++ "\n" ++ later.errorText }
  | .save path text :: rest =>
    match d.write path text.toUTF8 with
    | .ok changed =>
      let later := perform level changed rest
      { later with errorText := logText level (.dumpWritten path) ++ later.errorText }
    | .error refusal =>
      { errorText := writeFailure path refusal.message ++ "\n", directory := d, complete := false }

/-- Runs the command with options that were understood. -/
def Options.execute (o : Options) (d : Directory) : Except Fault Outcome :=
  let script : Except Refusal String := if o.file then d.readText o.contents else .ok o.contents
  match script with
  | .error refusal =>
    return {
      exitCode := 1
      output := ByteArray.empty
      errorText := readFailure o.contents refusal.message ++ "\n"
      directory := d }
  | .ok script => do
    let report ← o.report script
    let performed := perform o.level d report.actions
    return {
      exitCode := if report.success && performed.complete then 0 else 1
      output := report.output
      errorText := performed.errorText
      directory := performed.directory }

/-- Runs the command with any arguments, which the reader turns into a request. -/
def execute (reader : List String → Request) (d : Directory) (arguments : List String) :
    Except Fault Outcome :=
  match reader arguments with
  | .run o => o.execute d
  | .version =>
    return {
      exitCode := 0
      output := (versionLine ++ "\n").toUTF8
      errorText := ""
      directory := d }
  | .help =>
    return { exitCode := 0, output := (usage ++ "\n").toUTF8, errorText := "", directory := d }
  | .misuse =>
    return {
      exitCode := 2
      output := ByteArray.empty
      errorText := usage ++ "\n"
      directory := d }

end LineScript.Command
