import SheetLint.Command.Basic
import SheetLint.Config.Discovery
import SheetLint.Config.Rules
import SheetLint.Files.Selection

/-
  Checking files. The configuration is taken, the files are selected, and each is linted for itself;
  a file that cannot be linted is a failure and the others go on. Then the fixed texts are written,
  and the reports are given to the output or to a file. A failure before the first file is linted,
  or in writing, ends the check.
-/

namespace SheetLint

/-- What a command leaves behind. -/
structure Completion where
  disk : Disk
  out : Text := []
  failures : List Failure := []
  status : Status := .success

/-- The completion of a command that a failure ended. -/
def Completion.failed (disk : Disk) (failures : List Failure) : Completion :=
  { disk, failures, status := .failure }

/-- The files of a disk as a configuration is looked for in them. -/
def Disk.view (d : Disk) : FileView where
  has p := (d.look? p).isSome
  read? := d.read?

namespace Check

/-- The configuration of a check. -/
def config (g : General) (o : CheckOptions) (d : Disk) : Except Failure Config :=
  if g.noConfig then .ok {}
  else
    match o.config with
    | some p => Config.load d.view p
    | none => Config.discover d.view (some d.cwdPath)

/-- A scope with what a check is told beyond it. -/
def narrow (o : CheckOptions) (s : Scope) : Scope :=
  { s with extensions := o.extensions.getD s.extensions, exclude := s.exclude ++ o.exclude }

/-- The linter of a check and the files that it selects. -/
def plan (g : General) (o : CheckOptions) (d : Disk) : Except Failure (Linter × List Path) := do
  let c ← config g o d
  let s ← Selection.ofScope (narrow o c.scope)
  let files ← s.collect d o.paths
  return (← c.linter, files)

/-- Lints a file. -/
def lintFile (l : Linter) (mode : Mode) (d : Disk) (p : Path) : Except Failure FileReport :=
  match d.read? p with
  | none => .error (.fileRead p)
  | some s =>
    match l.lintSource mode s with
    | .ok report => .ok { path := p, report }
    | .error e => .error (.parse p e)

/-- The report that linting a file gave. -/
def report? : Except Failure FileReport → Option FileReport
  | .ok r => some r
  | .error _ => none

/-- The failure that linting a file gave. -/
def failure? : Except Failure FileReport → Option Failure
  | .ok _ => none
  | .error f => some f

/-- Writes fixed texts into their files, up to the first file that cannot be written. -/
def writeFixes (d : Disk) : List FileReport → Disk × Option Failure
  | [] => (d, none)
  | r :: rs =>
    match r.report.output with
    | none => writeFixes d rs
    | some s =>
      match d.write? r.path s with
      | some d => writeFixes d rs
      | none => (d, some (.fileWrite r.path))

/-- How a check ends that gave reports and failures. -/
def status (rs : List FileReport) (failures : List Failure) : Status :=
  if !failures.isEmpty || rs.any (·.report.hasInvalidOptions) then .failure
  else if rs.any (·.report.hasViolations) then .violations
  else .success

/-- Gives reports to the output or to a file. -/
def deliver (g : General) (o : CheckOptions) (d : Disk) (rs : List FileReport)
    (failures : List Failure) : Completion :=
  let s := o.format.write g.color.isColored g.verbose rs
  match o.output with
  | none =>
    { disk := d, out := if g.quiet then [] else s, failures, status := status rs failures }
  | some p =>
    match d.write? p s with
    | some disk => { disk, failures, status := status rs failures }
    | none => .failed d (failures ++ [.fileWrite p])

/-- Checks files. -/
def run (g : General) (o : CheckOptions) (d : Disk) : Completion :=
  match plan g o d with
  | .error f => .failed d [f]
  | .ok (linter, files) =>
    let outcomes := files.map (lintFile linter o.mode d)
    let reports := outcomes.filterMap report?
    let failures := outcomes.filterMap failure?
    match writeFixes d reports with
    | (d, none) => deliver g o d reports failures
    | (d, some f) => .failed d (failures ++ [f])

end Check

end SheetLint
