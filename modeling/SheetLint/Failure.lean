import SheetLint.Path
import SheetLint.Sheet.Parse

/-
  What can go wrong around the linting of files. A failure says what was wrong and where; its
  message is one function of it, and so is the label under which failures are sorted.
-/

namespace SheetLint

/-- Why a configuration cannot be used or written. -/
inductive ConfigFault
  | unsupportedVersion (version : String)
  | unknownRule (name : String)
  | badExtension (extension : String)
  | alreadyExists (path : Path)
  /-- A fault in words of its own. -/
  | stated (words : String)
deriving DecidableEq, Repr

/-- The version of configurations that can be used. -/
def supportedVersion : String := "1"

namespace ConfigFault

/-- What a fault is called. -/
def message : ConfigFault → String
  | unsupportedVersion v =>
    "Unsupported config version '" ++ v ++ "'. Only version '" ++ supportedVersion
      ++ "' is supported."
  | unknownRule name => "Unknown rule '" ++ name ++ "'"
  | badExtension e =>
    "scanner.extensions entries must be non-empty and without a leading dot, got '" ++ e ++ "'"
  | alreadyExists p =>
    "Configuration file already exists: " ++ String.ofList p ++ ". Use --force to overwrite."
  | stated words => words

end ConfigFault

/-- What went wrong. -/
inductive Failure
  | config (fault : ConfigFault)
  | fileRead (path : Path)
  | fileWrite (path : Path)
  | invalidPattern (pattern : String)
  | parse (path : Path) (error : ParseError)
  | io (words : String)
  /-- A configuration that is not TOML, or not of the expected shape. -/
  | toml
  | json (words : String)
deriving DecidableEq, Repr

namespace Failure

/-- What a failure is called. -/
def message : Failure → String
  | config fault => "Configuration error: " ++ fault.message
  | fileRead p => "Failed to read file: " ++ String.ofList p
  | fileWrite p => "Failed to write file: " ++ String.ofList p
  | invalidPattern p => "Invalid glob pattern: " ++ p
  | parse p e => "Failed to parse " ++ String.ofList p ++ ": " ++ e.message
  | io words => "IO error: " ++ words
  | toml => "TOML parse error"
  | json words => "JSON serialization error: " ++ words

/-- The kind of a failure. -/
def label : Failure → String
  | config _ => "Config"
  | toml => "Config"
  | fileRead _ => "FileRead"
  | fileWrite _ => "FileWrite"
  | invalidPattern _ => "Pattern"
  | parse .. => "Parse"
  | io _ => "IO"
  | json _ => "Serialize"

end Failure

end SheetLint
