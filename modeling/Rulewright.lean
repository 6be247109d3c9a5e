import Rulewright.Text.Substitute
import Rulewright.Text.Quoted
import Rulewright.Text.Uppercase
import Rulewright.Decimal.Shortest
import Rulewright.Json.Parser
import Rulewright.Json.Printer
import Rulewright.Json.Record
import Rulewright.Language.Entry
import Rulewright.Expr.Constant
import Rulewright.Expr.Printer
import Rulewright.Expr.Parser
import Rulewright.Code.Copy
import Rulewright.Code.Integrity
import Rulewright.Code.Printer
import Rulewright.Code.Run
import Rulewright.RuleSet
import Rulewright.Matcher.Construction
import Rulewright.Matcher.Rule
import Rulewright.Fusion
import Rulewright.Code.Edit
import Rulewright.Artifact.Generate
import Rulewright.Main
import Rulewright.Proofs.Tree.Cells
import Rulewright.Proofs.Tree.Walk
import Rulewright.Proofs.Tree.Surgery
import Rulewright.Proofs.Chain.Basic
import Rulewright.Proofs.Chain.Pattern
import Rulewright.Proofs.Chain.Store
import Rulewright.Proofs.Chain.Build
import Rulewright.Proofs.Tree.Calm
import Rulewright.Proofs.Chain.Rule
import Rulewright.Proofs.Matching.Reference
import Rulewright.Proofs.Matching.Bindings
import Rulewright.Proofs.Matching.Entry
import Rulewright.Proofs.Matching.Join
import Rulewright.Proofs.Matching.Capture
import Rulewright.Proofs.Matching.Correct
import Rulewright.Proofs.Tree.Copy
import Rulewright.Proofs.Fusion.Fuse
import Rulewright.Proofs.Fusion.Redundancy
import Rulewright.Proofs.Decimal.ReadBack
import Rulewright.Proofs.Decimal.Rounding
import Rulewright.Proofs.Text.Readable
import Rulewright.Proofs.Text.Comment
import Rulewright.Proofs.Guard.Text
import Rulewright.Proofs.Fusion.Soundness
import Rulewright.Proofs.Chain.Acceptance
import Rulewright.Proofs.Fusion.Plain
import Rulewright.Proofs.Fusion.Rules
import Rulewright.Proofs.Tree.Integrity
import Rulewright.Proofs.Chain.Failure
import Rulewright.Proofs.Artifact.Finished
import Rulewright.Proofs.Chain.Frame
import Rulewright.Proofs.Matching.RootCheck
import Rulewright.Proofs.Artifact.Order
import Rulewright.Proofs.Artifact.Dispatch
import Rulewright.Proofs.Chain.Setup
import Rulewright.Proofs.Fusion.Descent
import Rulewright.Proofs.Fusion.Checks
import Rulewright.Proofs.Fusion.Origins
import Rulewright.Proofs.Fusion.Loss
import Rulewright.Proofs.Fusion.Merged
import Rulewright.Proofs.Fusion.Route
import Rulewright.Proofs.Fusion.Applied
import Rulewright.Proofs.Fusion.Agreement
import Rulewright.Proofs.Fusion.Repetition
import Rulewright.Proofs.Fusion.Legible
import Rulewright.Proofs.Fusion.Elimination
import Rulewright.Proofs.Forest.Basic
import Rulewright.Proofs.Forest.Reach
import Rulewright.Proofs.Forest.Walk
import Rulewright.Proofs.Forest.Reads
import Rulewright.Proofs.Forest.Surgery
import Rulewright.Proofs.Forest.Growth
import Rulewright.Proofs.Forest.History
import Rulewright.Proofs.Notation.Layout
import Rulewright.Proofs.Notation.Scan
import Rulewright.Proofs.Notation.RoundTrip
import Rulewright.Proofs.Notation.Spelling
import Rulewright.Proofs.Notation.Storage
import Rulewright.Proofs.Artifact.Accounting
import Rulewright.Proofs.Artifact.Names
import Rulewright.Proofs.Artifact.Comments
import Rulewright.Proofs.Artifact.Permutation
import Rulewright.Proofs.Replacement.Writing
import Rulewright.Proofs.Scope.Reads
import Rulewright.Proofs.Scope.Walk
import Rulewright.Proofs.Scope.Pattern
import Rulewright.Proofs.Scope.Rule
import Rulewright.Proofs.Scope.Elimination
import Rulewright.Proofs.Scope.Opening
import Rulewright.Proofs.Scope.Fused
import Rulewright.Proofs.Replacement.Instance
import Rulewright.Proofs.Replacement.Rule
import Rulewright.Proofs.Replacement.Folding
import Rulewright.Proofs.Forest.Likeness
import Rulewright.Proofs.Forest.Merge
import Rulewright.Proofs.Forest.Beside
import Rulewright.Proofs.Tree.Text
import Rulewright.Proofs.Forest.Faithful
import Rulewright.Proofs.Chain.Elsewhere
import Rulewright.Proofs.Tree.Trace
import Rulewright.Proofs.Matching.Separate
import Rulewright.Proofs.Matching.Trace
import Rulewright.Proofs.Matching.Named
import Rulewright.Proofs.Matching.Range
