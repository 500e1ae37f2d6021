import LineScript.Scope.Arena

/-!
# Listing of all scopes

The tables of an arena in the order in which they were opened, each indented by
its depth, with the symbols that are bound in it.
-/

namespace LineScript

/-- Two spaces for every step. -/
def indentation (steps : Nat) : String :=
  String.ofList (List.replicate (2 * steps) ' ')

namespace Arena

/-- A heading for the table and a line for each of its symbols. -/
def tableLines (a : Arena) (id : TableId) : Except Fault (List String) := do
  let depth ← a.depth id
  let symbols ← a.locals id
  let heading := indentation (depth + 1) ++ s!"Block {id.index}"
  return heading :: symbols.map fun s => indentation (depth + 2) ++ s.describe

def listing (a : Arena) : Except Fault String := do
  let lines ← a.tableIds.mapM a.tableLines
  return String.join (("Symbols:" :: lines.flatten).map fun line => line ++ "\n")

end Arena

end LineScript
