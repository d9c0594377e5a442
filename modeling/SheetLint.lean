import SheetLint.Main
import SheetLint.Proofs.Rule.Agreement
import SheetLint.Proofs.Rule.Idempotence
import SheetLint.Proofs.Rule.Exactness
import SheetLint.Proofs.Rule.LineEndings
import SheetLint.Proofs.Sheet.NormalForm
import SheetLint.Proofs.Files.Places
import SheetLint.Proofs.Rule.Instances
import SheetLint.Proofs.Rule.Sources
import SheetLint.Proofs.Sheet.Respacing
import SheetLint.Proofs.Command.Plan
import SheetLint.Proofs.Command.Writing
import SheetLint.Proofs.Command.Account
import SheetLint.Proofs.Files.Stability
import SheetLint.Proofs.Command.Convergence
import SheetLint.Proofs.Config.Options
import SheetLint.Proofs.Sheet.Slices
import SheetLint.Proofs.Sheet.UrlBodies
import SheetLint.Proofs.Sheet.Culprits
import SheetLint.Proofs.Arena.Traversal
import SheetLint.Proofs.Bytes.Progress
import SheetLint.Proofs.Spacing.Indexes
import SheetLint.Proofs.Spacing.Meaning
import SheetLint.Proofs.Text.Positions
import SheetLint.Proofs.Spacing.Mirroring
import SheetLint.Proofs.Spacing.LineEndings
import SheetLint.Proofs.Files.Listing
import SheetLint.Proofs.Files.Completeness
import SheetLint.Proofs.Files.Exclusion
import SheetLint.Proofs.Command.Counting
import SheetLint.Proofs.Config.Loading
import SheetLint.Proofs.Config.RoundTrip
import SheetLint.Proofs.Report.Lines
import SheetLint.Proofs.Report.Colors
import SheetLint.Proofs.Report.Json
import SheetLint.Proofs.Command.Output
