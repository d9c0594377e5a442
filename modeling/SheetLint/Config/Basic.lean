import SheetLint.Rule.Registry
import SheetLint.Sorted
import SheetLint.Toml.Value

/-
  Configurations: which files to lint and which rules to run. The value of a rule is any TOML
  value. `false` turns the rule off and `true` runs it without an option; every other value is an
  option, a string by itself and the rest by their written form, so that it is the rule that
  refuses it.
-/

namespace SheetLint

/-- Which files of a directory to lint. -/
structure Scope where
  /-- Whether files that are ignored in version control are left out. -/
  gitignore : Bool := true
  /-- The extensions to lint, without a dot. -/
  extensions : List String := ["css"]
  /-- Patterns of paths to leave out. -/
  exclude : List String := []
deriving DecidableEq, Repr

/-- The rules of a configuration that names none. -/
def defaultRules : Toml.Table := [(Rule.newlineAfterSemicolon.name, .string "always")]

/-- Which files to lint and which rules to run. -/
structure Config where
  version : Option String := none
  scope : Scope := {}
  /-- The values of the rules, sorted by name. -/
  rules : Toml.Table := defaultRules

/-- What a configuration says about a rule. -/
inductive Setting
  | disabled
  | enabled (option : Option String)
deriving DecidableEq, Repr

namespace Config

/-- The name of configuration files. -/
def fileName : Text := ".semi-guard.toml".toList

/-- The text of a configuration file to start from. -/
def template : String :=
  "# semi-guard configuration\n"
    ++ "version = \"1\"\n"
    ++ "\n"
    ++ "[scanner]\n"
    ++ "# Respect .gitignore files when scanning directories\n"
    ++ "gitignore = true\n"
    ++ "# File extensions to lint\n"
    ++ "extensions = [\"css\"]\n"
    ++ "# Glob patterns to skip\n"
    ++ "exclude = []\n"
    ++ "\n"
    ++ "[rules]\n"
    ++ "# Require a newline after the semicolon of block-less at-rules.\n"
    ++ "# Only \"always\" is accepted; set to false to disable.\n"
    ++ "at-rule-semicolon-newline-after = \"always\"\n"

end Config

end SheetLint
