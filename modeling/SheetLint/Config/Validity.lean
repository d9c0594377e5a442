import SheetLint.Config.Basic
import SheetLint.Failure
import SheetLint.Glob.Parse

/-
  Which configurations can be used: the version is supported, every rule has a known name, every
  extension is a name without a leading dot, and every pattern is a pattern. Of several faults the
  first in this order counts. What a rule makes of its option is not asked here.
-/

namespace SheetLint.Config

/-- The fault in the version. -/
def versionFault? (c : Config) : Option Failure :=
  match c.version with
  | none => none
  | some v => if v = supportedVersion then none else some (.config (.unsupportedVersion v))

/-- The first rule whose name is not known. -/
def ruleFault? (c : Config) : Option Failure :=
  (c.rules.find? fun (name, _) => !Rule.isKnown name).map fun (name, _) =>
    .config (.unknownRule name)

/-- Whether a text can be an extension. -/
def isExtension (s : String) : Bool := s.toList ≠ [] && s.toList.head? ≠ some '.'

/-- The first text that cannot be an extension. -/
def extensionFault? (c : Config) : Option Failure :=
  (c.scope.extensions.find? (!isExtension ·)).map fun e => .config (.badExtension e)

/-- The first text that is not a pattern. -/
def patternFault? (c : Config) : Option Failure :=
  (c.scope.exclude.find? fun p => (Glob.parse? p.toList).isNone).map .invalidPattern

/-- The first fault in a configuration. -/
def fault? (c : Config) : Option Failure :=
  ((c.versionFault?.or c.ruleFault?).or c.extensionFault?).or c.patternFault?

/-- A configuration that can be used, or the first fault in it. -/
def validate (c : Config) : Except Failure Config :=
  match c.fault? with
  | none => .ok c
  | some f => .error f

end SheetLint.Config
