import LineScript.Diagnostic

/-!
# The log

What happens to a program is told as a list of events. An event carries data;
its level and its wording are given here once for all of them.
-/

namespace LineScript

/-- From the most severe to the least. -/
inductive Level where
  | error
  | warn
  | info
  | debug
  | trace
  deriving DecidableEq, Repr

namespace Level

def rank : Level → Nat
  | .error => 0
  | .warn => 1
  | .info => 2
  | .debug => 3
  | .trace => 4

def name : Level → String
  | .error => "ERROR"
  | .warn => "WARN"
  | .info => "INFO"
  | .debug => "DEBUG"
  | .trace => "TRACE"

end Level

inductive Event where
  | lexing (lines : Nat)
  | lexingFailed (errors : Nat)
  | parsing
  | statement (token : Token)
  | statementFailed (error : SyntaxError)
  | blockOpened (position : Position) (depth : Nat)
  | blockClosed (position : Position)
  | parsed (statements errors : Nat)
  | rejected (errors : Nat)
  | executing (tables : Nat)
  | blockEntered (position : Position)
  | blockLeft (position : Position)
  | statementExecuted (position : Position)
  | statementSkipped (error : RuntimeError)
  | aborted (error : RuntimeError)
  | executed (errors : Nat)
  | finished (errors : Nat)
  | dumpWritten (path : String)
  deriving DecidableEq, Repr

namespace Event

def level : Event → Level
  | .lexingFailed _ | .rejected _ | .aborted _ => .warn
  | .dumpWritten _ => .info
  | .lexing _ | .parsing | .parsed .. | .executing _ | .executed _ | .finished _ => .debug
  | .statement _ | .statementFailed _ | .blockOpened .. | .blockClosed _ | .blockEntered _
  | .blockLeft _ | .statementExecuted _ | .statementSkipped _ => .trace

/-- A position as the fields of an event. -/
def fields (p : Position) : String :=
  s!"line={p.line} column={p.column}"

def text : Event → String
  | .lexing lines => s!"lexing program lines={lines}"
  | .lexingFailed errors => s!"lexing failed, program not parsed errors={errors}"
  | .parsing => "parsing program"
  | .statement token => s!"statement {fields token.position} kind={token.kind.name}"
  | .statementFailed error => s!"statement failed error={error.message}"
  | .blockOpened position depth => s!"entering block {fields position} depth={depth}"
  | .blockClosed position => s!"leaving block {fields position}"
  | .parsed statements errors => s!"parsed program statements={statements} errors={errors}"
  | .rejected errors => s!"program has syntax errors errors={errors}"
  | .executing tables => s!"executing program tables={tables}"
  | .blockEntered position => s!"entering block {fields position}"
  | .blockLeft position => s!"leaving block {fields position}"
  | .statementExecuted position => s!"executing statement {fields position}"
  | .statementSkipped error => s!"statement skipped error={error.message}"
  | .aborted error => s!"execution aborted error={error.message}"
  | .executed errors => s!"executed program errors={errors}"
  | .finished errors => s!"run finished errors={errors}"
  | .dumpWritten path => s!"wrote dump path={path}"

/-- The event as a line of the log. -/
def line (e : Event) : String :=
  s!"{e.level.name} {e.text}"

/-- Whether a log of the given level shows the event. -/
def isShown (limit : Level) (e : Event) : Bool :=
  e.level.rank ≤ limit.rank

end Event

end LineScript
