import LineScript.Cursor
import LineScript.Statement.Reader

/-!
# Programs from source lines

A program is read in two steps: lines into tokens, tokens into a tree. If a line
cannot be scanned no tree is read. In every case there is a program, but one that
has errors is not meant to be run.
-/

namespace LineScript

/-- What reading a program gives. -/
structure Parsed where
  program : Program
  errors : List Diagnostic
  log : List Event

namespace Parsed

def isOk (p : Parsed) : Bool :=
  p.errors.isEmpty

def same (p q : Parsed) : Bool :=
  p.program.same q.program && p.errors = q.errors

end Parsed

namespace Program

/-- The tree of a list of tokens, its syntax errors, and what happened on the way. -/
def ofTokens (cursor : Cursor) : Program × List SyntaxError × List Event :=
  let (table, arena) := Arena.empty.openTable none
  let site : Site := { table, depth := 0, stop := cursor.closing.position }
  let reading := readBody site arena cursor.ahead
  ({ root := { position := .start, table, body := reading.body }, arena := reading.arena },
    reading.errors, reading.log)

def parse (lines : List String) : Parsed :=
  let (cursor, lexical) := Cursor.ofLines lines
  if lexical.isEmpty then
    let (program, errors, log) := ofTokens cursor
    let count := errors.length
    let verdict : List Event := if errors.isEmpty then [] else [.rejected count]
    { program
      errors := errors.map .grammar
      log := [.lexing lines.length, .parsing] ++ log ++
        .parsed program.root.body.length count :: verdict }
  else
    { program := Program.empty
      errors := lexical.map .lexical
      log := [.lexing lines.length, .lexingFailed lexical.length] }

end Program

end LineScript
