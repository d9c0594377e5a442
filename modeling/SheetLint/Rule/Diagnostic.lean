import SheetLint.Text.Position

/-
  What a rule reports: a finding in a stylesheet, or an option that the rule does not accept.
-/

namespace SheetLint

/-- How grave a finding is. -/
inductive Severity
  | error
  | warning
deriving DecidableEq, Repr

/-- A finding, or the reason why a rule did not run. -/
inductive DiagnosticKind
  | violation
  | invalidOption
deriving DecidableEq, Repr

/-- One report of a rule. A finding says where it is: the node, the number of characters from its
    start, and the position in the source if the node came from there. -/
structure Diagnostic where
  rule : String
  message : String
  kind : DiagnosticKind
  severity : Severity := .error
  node : Option Nat := none
  index : Option Nat := none
  position : Option Position := none
deriving DecidableEq, Repr

namespace Diagnostic

/-- Whether the report is about an option. -/
def isInvalidOption (d : Diagnostic) : Bool := d.kind == .invalidOption

end Diagnostic

/-- Every message of a rule ends with the rule's name. -/
def ruleMessage (text rule : String) : String := text ++ " (" ++ rule ++ ")"

/-- Reports an option that is missing or not among the values that a rule accepts. -/
def checkOption (rule : String) (actual : Option String) (accepted : List String) :
    Option Diagnostic :=
  match actual with
  | none =>
    some {
      rule, message := "Expected option value for rule \"" ++ rule ++ "\"", kind := .invalidOption }
  | some value =>
    if accepted.contains value then none
    else some {
      rule, message := "Invalid option value \"" ++ value ++ "\" for rule \"" ++ rule ++ "\""
      kind := .invalidOption }

/-- How a run of a rule ended. -/
inductive Outcome
  /-- The option is not accepted and the document was not looked at. -/
  | aborted (reason : Diagnostic)
  /-- The document was looked at; either findings are reported or they are fixed. -/
  | completed (diagnostics : List Diagnostic) (fixed : Nat)
deriving DecidableEq, Repr

namespace Outcome

/-- Whether the document was not looked at. -/
def isAborted : Outcome → Bool
  | aborted _ => true
  | completed .. => false

/-- What a run reported. -/
def diagnostics : Outcome → List Diagnostic
  | aborted reason => [reason]
  | completed ds _ => ds

/-- The number of findings that a run fixed. -/
def fixed : Outcome → Nat
  | aborted _ => 0
  | completed _ n => n

end Outcome

/-- Whether a run reports findings or fixes them. -/
inductive Mode
  | report
  | fix
deriving DecidableEq, Repr

end SheetLint
