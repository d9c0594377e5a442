import SheetLint.Linter
import SheetLint.Path

/-
  Reports of linted files, and the sums over several of them.
-/

namespace SheetLint

/-- What linting one file gave. -/
structure FileReport where
  path : Path
  report : SourceReport
deriving DecidableEq, Repr

/-- The sums over some files. -/
structure Totals where
  files : Nat
  filesWithProblems : Nat
  problems : Nat
  fixed : Nat
deriving DecidableEq, Repr

/-- The sums over the reports of some files. -/
def Totals.of (rs : List FileReport) : Totals where
  files := rs.length
  filesWithProblems := rs.countP fun r => !r.report.diagnostics.isEmpty
  problems := rs.foldr (fun r n => r.report.diagnostics.length + n) 0
  fixed := rs.foldr (fun r n => r.report.fixed + n) 0

end SheetLint
