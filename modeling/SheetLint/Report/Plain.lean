import SheetLint.Report.Terminal
import SheetLint.Report.Totals

/-
  Reports as lines to read: a line for each diagnostic, on request a line for each file that was
  fixed and one for each file without diagnostics, and a line with the sums.
-/

namespace SheetLint.Plain

/-- A number in decimal. -/
def number (n : Nat) : Text := Nat.toDigits 10 n

/-- The place of a diagnostic: the path, and the position if it has one. -/
def place (p : Path) (d : Diagnostic) : Text :=
  match d.position with
  | some pos => p ++ ':' :: pos.text.toList
  | none => p

/-- The name of a severity. -/
def severity : Severity → Span
  | .error => .styled .red "error".toList
  | .warning => .styled .yellow "warning".toList

/-- The line of a diagnostic. -/
def diagnosticLine (p : Path) (d : Diagnostic) : Line :=
  [.plain (place p d ++ "  ".toList), severity d.severity, .plain ("  ".toList ++ d.message.toList)]

/-- The line of a file that was fixed. -/
def fixedLine (r : FileReport) : Line :=
  [.styled .green (r.path ++ ": fixed ".toList ++ number r.report.fixed)]

/-- The line of a file without diagnostics. -/
def okLine (r : FileReport) : Line := [.styled .dim (r.path ++ ": ok".toList)]

/-- The lines of a file. -/
def fileLines (verbose : Nat) (r : FileReport) : List Line :=
  r.report.diagnostics.map (diagnosticLine r.path)
    ++ (if 1 ≤ verbose ∧ 0 < r.report.fixed then [fixedLine r] else [])
    ++ (if 2 ≤ verbose ∧ r.report.diagnostics = [] then [okLine r] else [])

/-- The line with the sums. -/
def summaryLine (t : Totals) : Line :=
  [.plain ("Summary: ".toList ++ number t.files ++ " files checked, ".toList)]
    ++ (if t.problems = 0 then [.styled .green "no problems".toList]
      else
        [.styled .red (number t.problems),
          .plain (" problems in ".toList ++ number t.filesWithProblems ++ " files".toList)])
    ++ (if 0 < t.fixed then [.plain (", ".toList ++ number t.fixed ++ " fixed".toList)] else [])

/-- The lines of some files and of their sums. -/
def lines (verbose : Nat) (rs : List FileReport) : List Line :=
  rs.flatMap (fileLines verbose) ++ [summaryLine (.of rs)]

/-- The text of some reports. -/
def format (colored : Bool) (verbose : Nat) (rs : List FileReport) : Text :=
  renderLines colored (lines verbose rs)

end SheetLint.Plain
