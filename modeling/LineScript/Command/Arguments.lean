import LineScript.Log

/-!
# Command line arguments

Flags may stand before or after the script, short ones may be bundled, and `--`
ends them. Arguments are looked at from the left, and the first one that settles
the matter does: a request for the version wins over a mistake behind it.
-/

namespace LineScript.Command

structure Options where
  /-- The script is the name of a file. -/
  file : Bool
  /-- The outline of the program is wanted. -/
  ast : Bool
  /-- The listing of the scopes is wanted. -/
  symbols : Bool
  /-- How often more log was asked for. -/
  verbosity : Nat
  /-- The script, or the name of its file. -/
  contents : String
  deriving DecidableEq, Repr

namespace Options

def level (o : Options) : Level :=
  match o.verbosity with
  | 0 => .warn
  | 1 => .info
  | 2 => .debug
  | _ => .trace

end Options

/-- What a command line asks for. -/
inductive Request where
  | run (options : Options)
  | version
  | help
  | misuse
  deriving DecidableEq, Repr

inductive Flag where
  | file
  | ast
  | symbols
  | verbose
  | version
  | help
  deriving DecidableEq, Repr

namespace Flag

def ofLong? : String → Option Flag
  | "file" => some .file
  | "ast" => some .ast
  | "symbols" => some .symbols
  | "verbose" => some .verbose
  | "version" => some .version
  | "help" => some .help
  | _ => none

def ofShort? : Char → Option Flag
  | 'f' => some .file
  | 'a' => some .ast
  | 's' => some .symbols
  | 'v' => some .verbose
  | 'V' => some .version
  | 'h' => some .help
  | _ => none

end Flag

/-- The arguments seen so far. -/
structure Draft where
  file : Bool
  ast : Bool
  symbols : Bool
  verbosity : Nat
  contents : Option String
  /-- Flags are over. -/
  closed : Bool
  deriving DecidableEq, Repr

namespace Draft

def empty : Draft :=
  { file := false, ast := false, symbols := false, verbosity := 0, contents := none,
    closed := false }

/-- Takes a flag. One that is on or off can be given only once. -/
def flag (d : Draft) : Flag → Except Request Draft
  | .file => if d.file then .error .misuse else .ok { d with file := true }
  | .ast => if d.ast then .error .misuse else .ok { d with ast := true }
  | .symbols => if d.symbols then .error .misuse else .ok { d with symbols := true }
  | .verbose => .ok { d with verbosity := d.verbosity + 1 }
  | .version => .error .version
  | .help => .error .help

def flag? (d : Draft) : Option Flag → Except Request Draft
  | some f => d.flag f
  | none => .error .misuse

/-- Takes the script. There is only one. -/
def script (d : Draft) (text : String) : Except Request Draft :=
  match d.contents with
  | none => .ok { d with contents := some text }
  | some _ => .error .misuse

/-- Takes one argument. A dash alone is a script. -/
def argument (d : Draft) (text : String) : Except Request Draft :=
  if d.closed then d.script text
  else
    match text.toList with
    | ['-', '-'] => .ok { d with closed := true }
    | '-' :: '-' :: long => d.flag? (Flag.ofLong? (String.ofList long))
    | '-' :: c :: more => (c :: more).foldlM (fun d c => d.flag? (Flag.ofShort? c)) d
    | _ => d.script text

def finish (d : Draft) : Request :=
  match d.contents with
  | none => .misuse
  | some contents =>
    .run
      { file := d.file, ast := d.ast, symbols := d.symbols, verbosity := d.verbosity, contents }

end Draft

namespace Request

/-- The usual reader of arguments. -/
def ofArguments (arguments : List String) : Request :=
  match arguments.foldlM Draft.argument Draft.empty with
  | .ok draft => draft.finish
  | .error request => request

end Request

end LineScript.Command
