import SheetLint.Report.Json
import SheetLint.Report.Plain

/-
  The forms in which reports are given.
-/

namespace SheetLint

/-- A form of reports. -/
inductive Format
  | text
  | json
deriving DecidableEq, Repr

namespace Format

/-- The form of a given name, in letters of either case. -/
def ofName? (s : Text) : Option Format :=
  let name := String.ofList (s.map Char.toLower)
  if name = "text" then some text else if name = "json" then some json else none

/-- What is said of a name that no form has. -/
def unknownMessage (s : Text) : String := "Unknown output format: " ++ String.ofList s

/-- The text of some reports in a form. Colors and verbosity matter only to lines to read. -/
def write (f : Format) (colored : Bool) (verbose : Nat) (rs : List FileReport) : Text :=
  match f with
  | text => Plain.format colored verbose rs
  | json => Json.format rs

end Format

/-- When colors are shown. -/
inductive ColorChoice
  /-- On a terminal. Output that is not known to go to one has none. -/
  | auto
  | always
  | never
deriving DecidableEq, Repr

namespace ColorChoice

/-- The choice of a given name. -/
def ofName? (s : Text) : Option ColorChoice :=
  if s = "auto".toList then some auto
  else if s = "always".toList then some always
  else if s = "never".toList then some never
  else none

/-- Whether colors are shown. -/
def isColored (c : ColorChoice) : Bool := c == always

end ColorChoice

end SheetLint
