import LineScript.Command.Arguments
import LineScript.Command.Directory
import LineScript.Command.Report

/-!
# The command line program

Reads the script, performs the planned actions on the real files, and exits. All
decisions are taken by the plan.
-/

namespace LineScript.Command

/-- The reason of a failed file operation, in the words of the command. -/
def reason : IO.Error → String
  | .noFileOrDirectory .. => Refusal.noEntry.message
  | .inappropriateType .. => Refusal.isDirectory.message
  | e => toString e

def sayLine (line : String) : IO Unit := do
  (← IO.getStderr).putStr (line ++ "\n")

def tell (level : Level) (event : Event) : IO Unit := do
  if event.isShown level then sayLine event.line

/-- Performs actions on the real files and says whether all could be performed. -/
def performAll (level : Level) : List Action → IO Bool
  | [] => return true
  | .log event :: rest => do
    tell level event
    performAll level rest
  | .say line :: rest => do
    sayLine line
    performAll level rest
  | .save path text :: rest => do
    match ← (IO.FS.writeBinFile path text.toUTF8).toBaseIO with
    | .ok () =>
      tell level (.dumpWritten path)
      performAll level rest
    | .error e =>
      sayLine (writeFailure path (reason e))
      return false

/-- The script that the options name, or why it cannot be had. -/
def Options.script (o : Options) : IO (Except String String) := do
  if o.file then
    match ← (IO.FS.readBinFile o.contents).toBaseIO with
    | .ok bytes =>
      match String.fromUTF8? bytes with
      | some text => return .ok text
      | none => return .error Refusal.notText.message
    | .error e => return .error (reason e)
  else return .ok o.contents

def Options.main (o : Options) : IO UInt32 := do
  match ← o.script with
  | .error why =>
    sayLine (readFailure o.contents why)
    return 1
  | .ok script =>
    match o.report script with
    | .error _ => return 101
    | .ok report =>
      let out ← IO.getStdout
      out.write report.output
      out.flush
      let complete ← performAll o.level report.actions
      return if report.success && complete then 0 else 1

end LineScript.Command

open LineScript.Command in
def main (arguments : List String) : IO UInt32 := do
  match Request.ofArguments arguments with
  | .run options => options.main
  | .version =>
    IO.println versionLine
    return 0
  | .help =>
    IO.println usage
    return 0
  | .misuse =>
    sayLine usage
    return 2
