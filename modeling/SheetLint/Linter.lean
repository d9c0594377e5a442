import SheetLint.Rule.Registry
import SheetLint.Sheet.Parse

/-
  Linters: the rules to run and their options. A linter runs its rules one after the other, each on
  the document that the one before left, and gathers what they report.
-/

namespace SheetLint

/-- A rule to run, and the option to run it with. -/
structure Check where
  rule : Rule
  option : Option String
deriving DecidableEq, Repr

/-- The rules to run, in order. -/
abbrev Linter := List Check

/-- What linting one source gives. -/
structure SourceReport where
  diagnostics : List Diagnostic := []
  fixed : Nat := 0
  /-- The fixed text, if anything was fixed. -/
  output : Option Text := none
deriving DecidableEq, Repr

namespace SourceReport

/-- Whether something was found in the stylesheet. -/
def hasViolations (r : SourceReport) : Bool := r.diagnostics.any (!·.isInvalidOption)

/-- Whether the option of a rule was refused. -/
def hasInvalidOptions (r : SourceReport) : Bool := r.diagnostics.any (·.isInvalidOption)

end SourceReport

namespace Linter

/-- Runs the rules one after the other. -/
def runAll (mode : Mode) : Linter → Document → Document × List Outcome
  | [], d => (d, [])
  | c :: cs, d =>
    let (d, o) := c.rule.run c.option mode d
    let (d, os) := runAll mode cs d
    (d, o :: os)

/-- Lints a document. The text is given only when it was fixed. -/
def lintDocument (l : Linter) (mode : Mode) (d : Document) : Document × SourceReport :=
  let (d, outcomes) := l.runAll mode d
  let fixed := outcomes.foldr (fun o n => o.fixed + n) 0
  (d, {
    diagnostics := outcomes.flatMap (·.diagnostics)
    fixed
    output := if mode == .fix && 0 < fixed then some d.render else none })

/-- Reads a source and lints it. -/
def lintSource (l : Linter) (mode : Mode) (source : Text) : Except ParseError SourceReport := do
  return (l.lintDocument mode (← parse source)).2

end Linter

end SheetLint
