import Dialogue.Json.Reader
import Dialogue.Main
import Dialogue.Proofs.RoundTrip.Script
import Dialogue.Proofs.Scope.Alpha
import Dialogue.Proofs.Scope.Resolution
import Dialogue.Script.Substitute
import Dialogue.Trace
import Dialogue.Scanner.Statement
import Dialogue.Proofs.Progress.Expression
import Dialogue.Proofs.Progress.Statement
import Dialogue.Proofs.Progress.Shape
import Dialogue.Proofs.Seam.Expression
import Dialogue.Proofs.Seam.Script
import Dialogue.Proofs.Scanner.Safety
import Dialogue.Proofs.Scope.Apart
import Dialogue.Proofs.Gap.Expression
import Dialogue.Proofs.Gap.Statement
import Dialogue.Proofs.Gap.Script
import Dialogue.Proofs.Program.Compiled
import Dialogue.Proofs.Program.Faithful
import Dialogue.Proofs.Program.Supported
import Dialogue.Proofs.Program.References
import Dialogue.Proofs.Program.Assigned
import Dialogue.Proofs.Nesting.Lexeme
import Dialogue.Proofs.Nesting.Expression
import Dialogue.Proofs.Nesting.Statement
import Dialogue.Proofs.Scope.Renaming
import Dialogue.Proofs.Program.Hidden
import Dialogue.Proofs.Scope.Returned
import Dialogue.Proofs.RoundTrip.JsonString
import Dialogue.Proofs.Program.Expansion
import Dialogue.Proofs.Program.Splicing
import Dialogue.Proofs.Walk.Steps
import Dialogue.Proofs.Walk.Substitution
import Dialogue.Proofs.Place.Position
import Dialogue.Proofs.Place.Report
import Dialogue.Proofs.Opening.Expression
import Dialogue.Proofs.Program.Simplified
import Dialogue.Proofs.Opening.Statement
import Dialogue.Proofs.Program.Fields
import Dialogue.Proofs.Rendered.Stripped
import Dialogue.Proofs.Rendered.ReadBack
import Dialogue.Proofs.Program.Integers
import Dialogue.Proofs.Rendered.SingleLine
import Dialogue.Proofs.Program.Indexed
