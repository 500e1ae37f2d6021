import LineScript.Command.Arguments
import LineScript.Executor
import LineScript.Program.Outline

/-!
# What the command does with a script

The work of the command is planned without touching any file: the bytes for
standard output, then a list of actions. Whoever performs the actions stops at the
first file that cannot be written.
-/

namespace LineScript.Command

inductive Action where
  /-- Tells an event to the log. -/
  | log (event : Event)
  /-- Writes a line to standard error. -/
  | say (line : String)
  /-- Saves a text under a path. -/
  | save (path : String) (text : String)
  deriving DecidableEq, Repr

/-- The plan for one script. -/
structure Report where
  output : ByteArray
  actions : List Action
  /-- Whether the script has no errors. -/
  success : Bool

/-- What the command prints when asked for its version. -/
def versionLine : String :=
  "kab 0.1.0"

def usage : String :=
  "Usage: kab [--file] [--ast] [--symbols] [--verbose]... <CONTENTS>"

def readFailure (path reason : String) : String :=
  s!"Failed to read the input file '{path}'. Perhaps this file does not exist?: {reason}"

def writeFailure (path reason : String) : String :=
  s!"Failed to write '{path}': {reason}"

/-- A name up to its last point, without it. A name has no such part if its only
point comes first, or if it has none. -/
def stem? (name : List Char) : Option (List Char) :=
  match name.reverse.dropWhile (· != '.') with
  | _ :: stem => if stem.isEmpty then none else some stem.reverse
  | [] => none

/-- Gives the last name of a path another extension. Behind the stem of a single
point no extension can stand: that name becomes the one of the parent folder. -/
def withExtension (path : String) (extension : String) : String :=
  let reversed := path.toList.reverse
  let name := (reversed.takeWhile (· != '/')).reverse
  let folder := String.ofList (reversed.dropWhile (· != '/')).reverse
  match stem? name with
  | none => path ++ "." ++ extension
  | some ['.'] => folder ++ ".."
  | some stem => folder ++ String.ofList stem ++ "." ++ extension

namespace Options

/-- A dump that is wanted goes to a file beside the script, or to standard error
if the script is no file. -/
def dump (o : Options) (wanted : Bool) (extension : String) (text : Except Fault String) :
    Except Fault (List Action) := do
  if wanted then
    let text ← text
    return [if o.file then .save (withExtension o.contents extension) (text ++ "\n") else .say text]
  else return []

/-- What is left to do once a program was read and, if it could be, run: the log,
the dumps and the messages, in this order. -/
def plan (o : Options) (program : Program) (output : ByteArray) (log : List Event)
    (errors : List Diagnostic) : Except Fault Report := do
  let outline ← o.dump o.ast "kab-ast" (program.outline "")
  let listing ← o.dump o.symbols "kab-symbols" program.arena.listing
  return {
    output
    actions := log.map .log ++ outline ++ listing ++ errors.map fun e => .say e.message
    success := errors.isEmpty }

/-- Reads a script and runs it if it has no errors. -/
def report (o : Options) (script : String) : Except Fault Report :=
  let parsed := Program.parse (Text.lines script)
  if parsed.isOk then
    let run := Executor.fresh.execute Buffer.sink parsed.program Buffer.unlimited
    match run.fault with
    | some fault => .error fault
    | none =>
      o.plan run.program run.sink.bytes (parsed.log ++ run.log)
        (run.executor.errors.map .runtime)
  else o.plan parsed.program ByteArray.empty parsed.log parsed.errors

end Options

end LineScript.Command
