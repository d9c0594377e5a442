import SheetLint.Report.Format
import SheetLint.Config.Basic

/-
  Commands: to check files, to start a configuration file, or to say which program this is.
-/

namespace SheetLint

/-- What every command can be told. -/
structure General where
  /-- How much is said beyond the diagnostics. -/
  verbose : Nat := 0
  /-- Whether a report is kept from the output. -/
  quiet : Bool := false
  color : ColorChoice := .auto
  /-- Whether configuration files are passed over. -/
  noConfig : Bool := false
deriving DecidableEq, Repr

/-- What a check is told. -/
structure CheckOptions where
  /-- The files and directories to check. -/
  paths : List Path := [".".toList]
  /-- The configuration file, if not the nearest. -/
  config : Option Path := none
  /-- Whether findings are reported or fixed. -/
  mode : Mode := .report
  /-- The extensions to check, in place of those of the configuration. -/
  extensions : Option (List String) := none
  /-- Patterns of paths to leave out, besides those of the configuration. -/
  exclude : List String := []
  format : Format := .text
  /-- The file for the report, in place of the output. -/
  output : Option Path := none
deriving DecidableEq, Repr

/-- What the start of a configuration file is told. -/
structure InitOptions where
  output : Path := Config.fileName
  /-- Whether a file that is there is written over. -/
  force : Bool := false
deriving DecidableEq, Repr

/-- What to do. -/
inductive Command
  | check (g : General) (o : CheckOptions)
  | init (o : InitOptions)
  | version
deriving DecidableEq, Repr

/-- How a command ended. -/
inductive Status
  | success
  /-- A check found violations. -/
  | violations
  /-- Something could not be done. -/
  | failure
deriving DecidableEq, Repr

namespace Status

/-- The number that a status is given to the outside by. -/
def code : Status → Nat
  | success => 0
  | violations => 1
  | failure => 2

end Status

end SheetLint
