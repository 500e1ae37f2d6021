import LineScript.Command
import LineScript.Main
import LineScript.Proofs.Acceptance
import LineScript.Proofs.Flattening
import LineScript.Proofs.LexicalScoping
import LineScript.Proofs.Skipping
import LineScript.Proofs.Truncation
import LineScript.Proofs.Initialisation
import LineScript.Proofs.ErrorOrder
import LineScript.Proofs.Extension
import LineScript.Proofs.Abandonment
import LineScript.Proofs.Containment
import LineScript.Proofs.Stores
import LineScript.Proofs.Comments
import LineScript.Proofs.CompoundAssignment
import LineScript.Proofs.Nesting
import LineScript.Proofs.Scanning.LongestMatch
import LineScript.Proofs.Scanning.StrayCharacters
import LineScript.Proofs.Scanning.Respacing
import LineScript.Proofs.Arithmetic
import LineScript.Proofs.BraceMatching
import LineScript.Proofs.RuntimeErrors
import LineScript.Proofs.IntegerLiterals
import LineScript.Proofs.VerbatimText
import LineScript.Proofs.NullStatements
import LineScript.Proofs.AssignmentTargets
import LineScript.Proofs.BlockStack
import LineScript.Proofs.Resynchronisation
import LineScript.Proofs.Scope.Shadowing
import LineScript.Proofs.Scope.Histories
import LineScript.Proofs.Command.Dumps
import LineScript.Proofs.LineEndings
import LineScript.Proofs.Cursors.Progress
