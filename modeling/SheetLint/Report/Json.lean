import SheetLint.Report.Totals

/-
  Reports as JSON. A value is written over several lines: each item and each entry on a line of its
  own, two spaces further in than the brackets around it, and nothing between brackets that hold
  nothing.
-/

namespace SheetLint

/-- A value of a JSON document. -/
inductive Json
  | number (n : Nat)
  | string (s : Text)
  | array (items : List Json)
  | object (entries : List (Text × Json))

namespace Json

/-- The written form of a character in a string. -/
def escapeChar (c : Char) : Text :=
  if c = '"' then ['\\', '"']
  else if c = '\\' then ['\\', '\\']
  else if c = '\n' then ['\\', 'n']
  else if c = '\r' then ['\\', 'r']
  else if c = '\t' then ['\\', 't']
  else if c = '\x08' then ['\\', 'b']
  else if c = '\x0c' then ['\\', 'f']
  else if c.toNat < 0x20 then
    ['\\', 'u', '0', '0', Nat.digitChar (c.toNat / 16), Nat.digitChar (c.toNat % 16)]
  else [c]

/-- The written form of a string. -/
def quote (s : Text) : Text := ['"'] ++ s.flatMap escapeChar ++ ['"']

/-- A new line with a number of steps of two spaces. -/
def newLine (depth : Nat) : Text := '\n' :: List.replicate (2 * depth) ' '

/-- Written forms on lines of their own between two brackets. -/
def enclose (opening closing : Char) (depth : Nat) : List Text → Text
  | [] => [opening, closing]
  | t :: ts =>
    [opening] ++ newLine (depth + 1) ++ t ++ ts.flatMap (fun t => ',' :: newLine (depth + 1) ++ t)
      ++ newLine depth ++ [closing]

mutual

/-- The written form of a value whose brackets are a number of steps in. -/
def write (depth : Nat) : Json → Text
  | number n => Nat.toDigits 10 n
  | string s => quote s
  | array vs => enclose '[' ']' depth (writeItems (depth + 1) vs)
  | object es => enclose '{' '}' depth (writeEntries (depth + 1) es)

/-- The written forms of the items of an array. -/
def writeItems (depth : Nat) : List Json → List Text
  | [] => []
  | v :: vs => v.write depth :: writeItems depth vs

/-- The written forms of the entries of an object. -/
def writeEntries (depth : Nat) : List (Text × Json) → List Text
  | [] => []
  | (k, v) :: es => (quote k ++ [':', ' '] ++ v.write depth) :: writeEntries depth es

end

/-- A string literal as a value. -/
def ofString (s : String) : Json := string s.toList

/-- An object with the given entries. -/
def ofEntries (es : List (String × Json)) : Json := object (es.map fun (k, v) => (k.toList, v))

end Json

/-- The name of a severity in a report. -/
def Severity.name : Severity → String
  | error => "error"
  | warning => "warning"

/-- The name of a kind of diagnostic in a report. -/
def DiagnosticKind.name : DiagnosticKind → String
  | violation => "violation"
  | invalidOption => "invalid_option"

/-- An entry that is there only with a number. -/
def optionalEntry (key : String) (n : Option Nat) : List (String × Json) :=
  (n.map fun n => (key, Json.number n)).toList

/-- A diagnostic as an object. What it does not have is left out. -/
def Diagnostic.toJson (d : Diagnostic) : Json :=
  .ofEntries ([("rule", .ofString d.rule), ("kind", .ofString d.kind.name),
      ("severity", .ofString d.severity.name), ("message", .ofString d.message)]
    ++ optionalEntry "line" (d.position.map (·.line))
    ++ optionalEntry "column" (d.position.map (·.column))
    ++ optionalEntry "index" d.index)

/-- The report of a file as an object. -/
def FileReport.toJson (r : FileReport) : Json :=
  .ofEntries [("path", .string r.path), ("fixed", .number r.report.fixed),
    ("diagnostics", .array (r.report.diagnostics.map (·.toJson)))]

/-- Sums as an object. -/
def Totals.toJson (t : Totals) : Json :=
  .ofEntries [("total_files", .number t.files),
    ("files_with_problems", .number t.filesWithProblems), ("problems", .number t.problems),
    ("fixed", .number t.fixed)]

/-- The JSON text of some reports. -/
def Json.format (rs : List FileReport) : Text :=
  (ofEntries [("summary", (Totals.of rs).toJson), ("results", array (rs.map (·.toJson)))]).write 0

end SheetLint
