import SheetLint.Config.Basic
import SheetLint.Toml.Scalar
import SheetLint.Toml.Writer

/-
  Configurations as TOML tables. Entries that a table does not have take their default, and entries
  that mean nothing are passed over; an entry of a wrong type makes the table no configuration.
  Only a table without rules has the default ones: an empty table of rules runs none.
-/

namespace SheetLint

open Sorted (lookup)

namespace Toml

/-- A truth value. -/
def Value.flag? : Value → Option Bool
  | .boolean b => some b
  | _ => none

/-- A string. -/
def Value.string? : Value → Option String
  | .string s => some s
  | _ => none

/-- An array of strings. -/
def Value.strings? : Value → Option (List String)
  | .array vs => vs.mapM Value.string?
  | _ => none

/-- The key of the entry that stands for a date or a time where a table should be. -/
def datetimeKey : String := "$__toml_private_datetime"

/-- The date or the time that the first entry of a table stands for. -/
def hiddenDatetime? : Table → Option Value
  | (_, .string s) :: _ => (datetime? s.toList).map .datetime
  | _ => none

mutual

/-- A value as it is kept. Whole numbers are kept if they are at least `-2^63` and less than `2^63`,
    and a table that starts with the key of dates and times is kept as the date or the time. -/
def Value.kept? : Value → Option Value
  | .integer i =>
    if -(Nat.pow 2 63 : Int) ≤ i ∧ i < (Nat.pow 2 63 : Int) then some (.integer i) else none
  | .array vs => (keptItems? vs).map .array
  | .table es =>
    if es.head?.map (·.1) = some datetimeKey then hiddenDatetime? es
    else (keptEntries? es).map .table
  | v => some v

/-- The items of an array as they are kept. -/
def keptItems? : List Value → Option (List Value)
  | [] => some []
  | v :: vs => do return (← v.kept?) :: (← keptItems? vs)

/-- The entries of a table as they are kept. -/
def keptEntries? : List (String × Value) → Option (List (String × Value))
  | [] => some []
  | (k, v) :: es => do return (k, ← v.kept?) :: (← keptEntries? es)

end

end Toml

namespace Scope

/-- The scope that three values give, in the order in which they are written. -/
def ofValues? (gitignore extensions exclude : Option Toml.Value) : Option Scope := do
  let standard : Scope := {}
  return {
    gitignore := ← (gitignore.map (·.flag?)).getD (some standard.gitignore)
    extensions := ← (extensions.map (·.strings?)).getD (some standard.extensions)
    exclude := ← (exclude.map (·.strings?)).getD (some standard.exclude) }

/-- The scope that a value says. An array gives the entries in order; a date or a time gives
    none. -/
def ofValue? : Toml.Value → Option Scope
  | .table es => ofValues? (lookup "gitignore" es) (lookup "extensions" es) (lookup "exclude" es)
  | .array vs => ofValues? vs[0]? vs[1]? vs[2]?
  | .datetime _ => some {}
  | _ => none

/-- The entries of a scope, in the order in which they are written. -/
def entries (s : Scope) : List (String × Toml.Value) :=
  [("gitignore", .boolean s.gitignore),
    ("extensions", .array (s.extensions.map .string)),
    ("exclude", .array (s.exclude.map .string))]

end Scope

namespace Config

/-- The rules that a value says. A date or a time counts as a table with its text. -/
def rulesOf? : Toml.Value → Option Toml.Table
  | .table es => Toml.keptEntries? es
  | .datetime t => some [(Toml.datetimeKey, .string (String.ofList (Toml.writeDatetime t)))]
  | _ => none

/-- The configuration that a table says. -/
def ofTable? (es : Toml.Table) : Option Config := do
  return {
    version := ← match lookup "version" es with
      | none => some none
      | some v => v.string?.map some
    scope := ← ((lookup "scanner" es).map Scope.ofValue?).getD (some {})
    rules := ← ((lookup "rules" es).map rulesOf?).getD (some defaultRules) }

/-- The entries of a configuration, in the order in which they are written. -/
def entries (c : Config) : List (String × Toml.Value) :=
  (c.version.map fun v => ("version", Toml.Value.string v)).toList
    ++ [("scanner", .table c.scope.entries), ("rules", .table c.rules)]

end Config

end SheetLint
