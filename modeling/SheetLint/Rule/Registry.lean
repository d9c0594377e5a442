import SheetLint.Rule.NewlineAfterSemicolon

/-
  The rules there are, by name. The names that a configuration may use stand in a list of their own;
  they are the names by which the rules are found (`isSome_ofName?`).
-/

namespace SheetLint

/-- A rule of the linter. -/
inductive Rule
  | newlineAfterSemicolon
deriving DecidableEq, Repr

namespace Rule

/-- All rules. -/
def all : List Rule := [newlineAfterSemicolon]

/-- The name by which a configuration names a rule. -/
def name : Rule → String
  | newlineAfterSemicolon => NewlineAfterSemicolon.name

/-- Where the rule is described. -/
def url : Rule → String
  | newlineAfterSemicolon => "https://stylelint.io/user-guide/rules/at-rule-semicolon-newline-after"

/-- Whether the rule can fix what it finds. -/
def isFixable : Rule → Bool
  | newlineAfterSemicolon => true

/-- Whether the rule is kept for old configurations only. -/
def isDeprecated : Rule → Bool
  | newlineAfterSemicolon => true

/-- The names of rules that a configuration may use. -/
def names : List String := [NewlineAfterSemicolon.name]

/-- Whether a configuration may use a name of a rule. -/
def isKnown (s : String) : Bool := names.contains s

/-- The rule of a given name. -/
def ofName? (s : String) : Option Rule := all.find? (·.name == s)

/-- Runs a rule with an option. -/
def run : Rule → Option String → Mode → Document → Document × Outcome
  | newlineAfterSemicolon => NewlineAfterSemicolon.run

theorem name_of_ofName? {s : String} {r : Rule} (h : ofName? s = some r) : r.name = s := by
  have hname := List.find?_some h
  simpa using hname

theorem mem_all (r : Rule) : r ∈ all := by
  cases r
  decide

theorem map_name_all : all.map name = names := rfl

/-- A name that may be used is the name of a rule, and only such a name is. -/
theorem isKnown_iff {s : String} : isKnown s ↔ ∃ r : Rule, r.name = s := by
  rw [isKnown, List.contains_iff_mem, ← map_name_all, List.mem_map]
  exact exists_congr fun r => and_iff_right (mem_all r)

/-- Names that may be used and names by which a rule is found are the same. -/
theorem isSome_ofName? (s : String) : (ofName? s).isSome = isKnown s := by
  rw [Bool.eq_iff_iff, isKnown_iff, ofName?, List.find?_isSome]
  simp only [beq_iff_eq, mem_all, true_and]

end Rule

end SheetLint
