import SheetLint.Config.Basic
import SheetLint.Failure
import SheetLint.Linter
import SheetLint.Toml.Writer

/-
  From a configuration to a linter: each rule that is not turned off becomes a check, in the order
  of the names.
-/

namespace SheetLint

/-- What the value of a rule says. -/
def Setting.ofValue : Toml.Value → Setting
  | .boolean false => disabled
  | .boolean true => enabled none
  | .string option => enabled (some option)
  | v => enabled (some (String.ofList v.write))

namespace Config

/-- The check that an entry asks for, if any. -/
def check? (name : String) (v : Toml.Value) : Except Failure (Option Check) :=
  match Setting.ofValue v with
  | .disabled => .ok none
  | .enabled option =>
    match Rule.ofName? name with
    | some rule => .ok (some { rule, option })
    | none => .error (.config (.unknownRule name))

/-- The checks that entries ask for. -/
def checks : List (String × Toml.Value) → Except Failure Linter
  | [] => .ok []
  | (name, v) :: es => do
    let c ← check? name v
    let cs ← checks es
    return c.toList ++ cs

/-- The linter of a configuration. -/
def linter (c : Config) : Except Failure Linter := checks c.rules

end Config

end SheetLint
