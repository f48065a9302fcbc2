import YangDoc.Argument
import YangDoc.Comment
import YangDoc.Construction
import YangDoc.Decimal.Shortest
import YangDoc.Diagnostic
import YangDoc.Error
import YangDoc.Expr
import YangDoc.Expr.OfJson
import YangDoc.Inspect
import YangDoc.Json.Basic
import YangDoc.Json.Number
import YangDoc.Json.Reader
import YangDoc.Keyword
import YangDoc.Keyword.Method
import YangDoc.Layout
import YangDoc.Node.Walk
import YangDoc.NodeList
import YangDoc.Query
import YangDoc.Quoting
import YangDoc.Section
import YangDoc.Statement
import YangDoc.Text.Blank
import YangDoc.Text.Lines
import YangDoc.Text.Literal
import YangDoc.Tree.Basic
import YangDoc.Tree.Copy
import YangDoc.Tree.Move
import YangDoc.Tree.Printer
import YangDoc.Tree.Walk
import YangDoc.Validation
import YangDoc.Validation.Structural
import YangDoc.Workspace
import YangDoc.Proofs.Tree.Forest
import YangDoc.Proofs.Tree.Plant
import YangDoc.Proofs.Construction.Outcome
import YangDoc.Proofs.Construction.Edits
import YangDoc.Proofs.Construction.Safety
import YangDoc.Proofs.Construction.Reachable
import YangDoc.Proofs.Tree.Moves
import YangDoc.Proofs.Construction.Receiving
import YangDoc.Proofs.Construction.Preflight
import YangDoc.Proofs.Construction.Failure
import YangDoc.Proofs.Statement.Print
import YangDoc.Proofs.Syntax.Reader
import YangDoc.Proofs.Syntax.Scanning
import YangDoc.Proofs.Text.Lines
import YangDoc.Proofs.Syntax.Comments
import YangDoc.Proofs.Syntax.RoundTrip
import YangDoc.Proofs.Tree.Below
import YangDoc.Proofs.Expr.Denotation
import YangDoc.Proofs.Construction.Frame
import YangDoc.Proofs.Construction.Materialization
import YangDoc.Proofs.Tree.SingleRoot
import YangDoc.Proofs.Construction.SingleRoot
import YangDoc.Proofs.Syntax.CommentEnd
import YangDoc.Proofs.Syntax.DoubleQuoted
import YangDoc.Proofs.Statement.Walk
import YangDoc.Proofs.Statement.Observation
import YangDoc.Proofs.Construction.OtherDocuments
import YangDoc.Proofs.Construction.Growth
import YangDoc.Proofs.Construction.Broadcast
import YangDoc.Proofs.Construction.Moving
import YangDoc.Proofs.Construction.Copying
import YangDoc.Proofs.Tree.Insertion
import YangDoc.Proofs.Construction.BuildAndAppend
import YangDoc.Proofs.Tree.Cycles
import YangDoc.Proofs.Section.Order
import YangDoc.Proofs.Tree.Traversal
import YangDoc.Proofs.Section.Rearrangement
import YangDoc.Proofs.Layout.Indentation
import YangDoc.Proofs.Validation.Findings
import YangDoc.Proofs.Validation.Comments
import YangDoc.Proofs.Validation.UnusedImports
import YangDoc.Proofs.Expr.Grammar
import YangDoc.Proofs.Tree.Numbering
import YangDoc.Proofs.Construction.Literals
import YangDoc.Proofs.Construction.WalkAndBuild
import YangDoc.Proofs.Validation.Isolation
import YangDoc.Proofs.NodeList.Chaining
import YangDoc.Proofs.Tree.Replacement
import YangDoc.Proofs.Tree.RecordedParents
import YangDoc.Proofs.Keyword.Spelling
import YangDoc.Proofs.Construction.ReadingBack
import YangDoc.Proofs.Tree.Locality
import YangDoc.Proofs.NodeList.Slicing
