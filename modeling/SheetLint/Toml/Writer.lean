import SheetLint.Decimal.Shortest
import SheetLint.Toml.Value

/-
  The written form of TOML values and documents. A string is written in the first of these forms
  that needs no escape for it: in double quotes, in single quotes, over several lines in double and
  in single quotes; if each needs one, it is written with escapes. A document writes the plain
  entries of a table under its header, and after them the tables in it under headers of their own.
-/

namespace SheetLint.Toml

/-! ## Strings -/

/-- The greatest number of equal characters `q` that stand in a row; `run` of them come before. -/
def longestRun (q : Char) (run : Nat) : Text → Nat
  | [] => run
  | c :: s => if c = q then longestRun q (run + 1) s else max run (longestRun q 0 s)

/-- Characters that only an escape can stand for, whatever the notation. -/
def needsCode (c : Char) : Bool := (c.toNat < 0x20 && c != '\t' && c != '\n') || c.toNat == 0x7f

/-- A code with the given number of hexadecimal digits. -/
def hexDigits (width n : Nat) : Text :=
  let ds := (Nat.toDigits 16 n).map Char.toUpper
  List.replicate (width - ds.length) '0' ++ ds

/-- The escape for a character, or the character itself. Whether line feeds need one depends on the
    notation. -/
def escapeChar (lines : Bool) (c : Char) : Text :=
  if c = '\\' then ['\\', '\\']
  else if c = '\t' then ['\\', 't']
  else if c = '\n' then (if lines then ['\n'] else ['\\', 'n'])
  else if c = '\x08' then ['\\', 'b']
  else if c = '\x0c' then ['\\', 'f']
  else if c = '\r' then ['\\', 'r']
  else if needsCode c then ['\\', 'u'] ++ hexDigits 4 c.toNat
  else [c]

/-- A text with escapes. Every quote after `allowed` in a row has one; `run` quotes come before. -/
def escapeAll (lines : Bool) (allowed run : Nat) : Text → Text
  | [] => []
  | c :: s =>
    if c = '"' then
      if allowed ≤ run then '\\' :: '"' :: escapeAll lines allowed 0 s
      else '"' :: escapeAll lines allowed (run + 1) s
    else escapeChar lines c ++ escapeAll lines allowed 0 s

/-- Three equal quotes. -/
def triple (q : Char) : Text := [q, q, q]

/-- A text of several lines starts on a line of its own. -/
def leadingLine (s : Text) : Text := if s.contains '\n' then ['\n'] else []

/-- A text on one line in double quotes. -/
def writeBasic (s : Text) : Text := ['"'] ++ escapeAll false 0 0 s ++ ['"']

/-- A text on one line in single quotes, as it is. -/
def writeLiteral (s : Text) : Text := ['\''] ++ s ++ ['\'']

/-- A text over several lines in double quotes. -/
def writeBasicLines (s : Text) : Text :=
  triple '"' ++ leadingLine s ++ escapeAll true 2 0 s ++ triple '"'

/-- A text over several lines in single quotes, as it is. -/
def writeLiteralLines (s : Text) : Text := triple '\'' ++ leadingLine s ++ s ++ triple '\''

/-- The written form of a string. -/
def writeString (s : Text) : Text :=
  let hasCode := s.any needsCode
  let hasBackslash := s.contains '\\'
  let hasLine := s.contains '\n'
  let double := longestRun '"' 0 s
  let single := longestRun '\'' 0 s
  if !hasCode && !hasBackslash && !hasLine && double == 0 then writeBasic s
  else if !hasCode && !hasLine && single == 0 then writeLiteral s
  else if !hasCode && !hasBackslash && double ≤ 2 then writeBasicLines s
  else if !hasCode && single ≤ 2 then writeLiteralLines s
  else if hasLine then writeBasicLines s
  else writeBasic s

/-- Whether a key is written without quotes. -/
def isBareKey (s : Text) : Bool := !s.isEmpty && s.all fun c => c.isAlphanum || c == '_' || c == '-'

/-- The written form of a key, which is always on one line. -/
def writeKey (s : Text) : Text :=
  if isBareKey s then s
  else if s.any (fun c => needsCode c || c == '\n') then writeBasic s
  else if !s.contains '\\' && !s.contains '"' then writeBasic s
  else if !s.contains '\'' then writeLiteral s
  else writeBasic s

/-! ## Values -/

/-- A number with at least two digits. -/
def twoDigits (n : Nat) : Text :=
  let ds := Nat.toDigits 10 n
  List.replicate (2 - ds.length) '0' ++ ds

/-- A number with at least four digits. -/
def fourDigits (n : Nat) : Text :=
  let ds := Nat.toDigits 10 n
  List.replicate (4 - ds.length) '0' ++ ds

/-- The fraction of a second, without zeros at its end. -/
def writeFraction (nanosecond : Nat) : Text :=
  if nanosecond = 0 then []
  else
    let ds := Nat.toDigits 10 nanosecond
    '.' :: ((List.replicate (9 - ds.length) '0' ++ ds).reverse.dropWhile (· == '0')).reverse

/-- A day as `1979-05-27`. -/
def writeDate (d : Date) : Text :=
  fourDigits d.year ++ ['-'] ++ twoDigits d.month ++ ['-'] ++ twoDigits d.day

/-- A time as `07:32:00.5`. -/
def writeTime (t : Time) : Text :=
  twoDigits t.hour ++ [':'] ++ twoDigits t.minute ++ [':'] ++ twoDigits t.second
    ++ writeFraction t.nanosecond

/-- A zone as `Z` or `+01:00`. -/
def writeZone : Zone → Text
  | .utc => ['Z']
  | .offset m =>
    [if m < 0 then '-' else '+'] ++ twoDigits (m.natAbs / 60) ++ [':'] ++ twoDigits (m.natAbs % 60)

/-- A date, a time, or both with a `T` between them. -/
def writeDatetime : Datetime → Text
  | .date d => writeDate d
  | .time t => writeTime t
  | .both d t z => writeDate d ++ ['T'] ++ writeTime t ++ (z.map writeZone).getD []

/-- A whole number in decimal. -/
def writeInteger (i : Int) : Text :=
  (if i < 0 then ['-'] else []) ++ Nat.toDigits 10 i.natAbs

/-- A decimal with all its places, and one after the point if it is whole. -/
def writeDecimal (d : Binary64.Decimal) : Text :=
  let ds := Nat.toDigits 10 d.digits
  if 0 ≤ d.exponent then ds ++ List.replicate d.exponent.toNat '0' ++ ['.', '0']
  else
    let places := (-d.exponent).toNat
    let ds := List.replicate (places + 1 - ds.length) '0' ++ ds
    ds.take (ds.length - places) ++ ['.'] ++ ds.drop (ds.length - places)

/-- A number in the shortest decimal that reads back. -/
def writeFloat : Binary64 → Text
  | .finite negative 0 _ => (if negative then ['-'] else []) ++ ['0', '.', '0']
  | .finite negative m e =>
    (if negative then ['-'] else []) ++ writeDecimal (Binary64.shortest m e)
  | .infinite negative => (if negative then ['-'] else []) ++ ['i', 'n', 'f']
  | .nan => ['n', 'a', 'n']

/-- Texts with a separator between them. -/
def join (separator : Text) : List Text → Text
  | [] => []
  | [t] => t
  | t :: ts => t ++ separator ++ join separator ts

mutual

/-- The written form of a value on one line, or over several lines where a string in it is. -/
def Value.write : Value → Text
  | .string s => writeString s.toList
  | .integer i => writeInteger i
  | .float x => writeFloat x
  | .boolean b => if b then ['t', 'r', 'u', 'e'] else ['f', 'a', 'l', 's', 'e']
  | .datetime t => writeDatetime t
  | .array vs => ['['] ++ join [',', ' '] (writeItems vs) ++ [']']
  | .table [] => ['{', '}']
  | .table (e :: es) => ['{', ' '] ++ join [',', ' '] (writeEntries (e :: es)) ++ [' ', '}']

/-- The written forms of the items of an array. -/
def writeItems : List Value → List Text
  | [] => []
  | v :: vs => v.write :: writeItems vs

/-- The written forms of the entries of a table. -/
def writeEntries : List (String × Value) → List Text
  | [] => []
  | (k, v) :: es => (writeKey k.toList ++ [' ', '=', ' '] ++ v.write) :: writeEntries es

end

/-! ## Documents -/

/-- Whether a value is a table. -/
def Value.isTable : Value → Bool
  | .table _ => true
  | _ => false

/-- Whether a value is an array of tables only, at least one. -/
def Value.isTables : Value → Bool
  | .array vs => !vs.isEmpty && vs.all (·.isTable)
  | _ => false

/-- Whether a value is written behind its key, and not under a header. -/
def Value.isPlain (v : Value) : Bool := !v.isTable && !v.isTables

/-- A line with the written form of an entry. -/
def writeEntryLine (key : String) (v : Value) : Text :=
  writeKey key.toList ++ [' ', '=', ' '] ++ v.write ++ ['\n']

/-- The lines of the plain entries of a table. -/
def writePlain (es : Table) : Text :=
  (es.filter (·.2.isPlain)).flatMap fun (k, v) => writeEntryLine k v

/-- The name of a table in its header. -/
def writePath (path : List String) : Text := join ['.'] (path.map fun k => writeKey k.toList)

/-- A table under its header. A table that has nothing but tables in it needs no header. -/
def writeSection (path : List String) (es : Table) : List Text :=
  if es.isEmpty || es.any (·.2.isPlain) then
    [['['] ++ writePath path ++ [']', '\n'] ++ writePlain es]
  else []

mutual

/-- The tables that a value under a path is written as, each with its header. -/
def Value.sections (path : List String) : Value → List Text
  | .table es => writeSection path es ++ innerSections path es
  | .array vs => if Value.isTables (.array vs) then elementSections path vs else []
  | _ => []

/-- The tables in a table. -/
def innerSections (path : List String) : List (String × Value) → List Text
  | [] => []
  | (k, v) :: es => v.sections (path ++ [k]) ++ innerSections path es

/-- The tables of an array of tables. -/
def elementSections (path : List String) : List Value → List Text
  | [] => []
  | .table es :: vs =>
    ([['[', '['] ++ writePath path ++ [']', ']', '\n'] ++ writePlain es] ++ innerSections path es)
      ++ elementSections path vs
  | _ :: vs => elementSections path vs

end

/-- The written form of a document: the plain entries, and the tables with blank lines between. -/
def write (es : Table) : Text :=
  let plain := writePlain es
  join ['\n'] ((if plain.isEmpty then [] else [plain]) ++ innerSections [] es)

end SheetLint.Toml
