import SheetLint.Sorted
import SheetLint.Toml.Scalar

/-
  TOML documents. A document is read as a list of lines, each a header or a key with a value, and
  the tables are then put together from the lines. A table comes into being once: a header may not
  name a table that a header or a dotted key has made, and a dotted key may not reach into a table
  that a header has made.
-/

namespace SheetLint.Toml

open Sorted (insert lookup)

/-- How a table came into being. -/
inductive Origin
  /-- As a part of a header that names a table further inside. -/
  | passage
  /-- As a part of a dotted key. -/
  | dotted
  /-- By a header of its own. -/
  | header
deriving DecidableEq, Repr

/-- A table or a value while the document is put together. -/
inductive Item
  | value (v : Value)
  | table (origin : Origin) (entries : List (String × Item))
  /-- The tables of an array that headers add to, latest first. -/
  | tables (latest : List (String × Item)) (earlier : List (List (String × Item)))

/-- A table while the document is put together. -/
abbrev Section := Origin × List (String × Item)

/-- Changes the table at the end of a path. The tables on the way are made if they are not there,
    with the given origin; an array of tables is entered at its latest. A dotted key stays out of
    tables that have a header. -/
def alter (made : Origin) (path : List String) (change : Section → Option Section) (t : Section) :
    Option Section :=
  match path with
  | [] => change t
  | k :: ks =>
    let item : Option Item :=
      match lookup k t.2 with
      | none => (alter made ks change (made, [])).map fun (o, es) => .table o es
      | some (.value _) => none
      | some (.table o es) =>
        if made = .dotted ∧ o = .header then none
        else (alter made ks change (o, es)).map fun (o, es) => .table o es
      | some (.tables es earlier) =>
        (alter made ks change (.header, es)).map fun (_, es) => .tables es earlier
    item.map fun i => (t.1, insert k i t.2)

/-- Adds an entry to a table, at the end of a dotted path in it. -/
def addEntry (path : List String) (v : Value) (t : Section) : Option Section :=
  match path.reverse with
  | [] => none
  | key :: front =>
    alter .dotted front.reverse (fun (o, es) =>
      if (!front.isEmpty && o != .dotted) || (lookup key es).isSome then none
      else some (o, insert key (.value v) es)) t

/-- Opens the table that a header names. -/
def openTable (path : List String) (t : Section) : Option Section :=
  match path.reverse with
  | [] => none
  | key :: front =>
    alter .passage front.reverse (fun (o, es) =>
      match lookup key es with
      | none => some (o, insert key (.table .header []) es)
      | some (.table .passage inner) => some (o, insert key (.table .header inner) es)
      | some _ => none) t

/-- Adds a table to the array that a header names. -/
def openElement (path : List String) (t : Section) : Option Section :=
  match path.reverse with
  | [] => none
  | key :: front =>
    alter .passage front.reverse (fun (o, es) =>
      match lookup key es with
      | none => some (o, insert key (.tables [] []) es)
      | some (.tables latest earlier) => some (o, insert key (.tables [] (latest :: earlier)) es)
      | some _ => none) t

mutual

/-- The value of an item. -/
def Item.toValue : Item → Value
  | .value v => v
  | .table _ es => .table (toTable es)
  | .tables latest earlier => .array ((toTables earlier).reverse ++ [.table (toTable latest)])

/-- The entries of a table. -/
def toTable : List (String × Item) → Table
  | [] => []
  | (k, i) :: es => (k, i.toValue) :: toTable es

/-- The tables of an array. -/
def toTables : List (List (String × Item)) → List Value
  | [] => []
  | es :: rest => .table (toTable es) :: toTables rest

end

/-! ## Values -/

/-- Reads the items of an array after its opening bracket. -/
def readItems (value : Reader Value) (s : Text) : Option (List Value × Text) :=
  match skipLines s with
  | ']' :: r => some ([], r)
  | t => do
    let (v, r) ← value t
    match skipLines r with
    | ']' :: r => some ([v], r)
    | ',' :: r =>
      if r.length < s.length then do
        let (vs, r) ← readItems value r
        return (v :: vs, r)
      else none
    | _ => none
termination_by s.length

/-- Reads a key, an equals sign and a value. -/
def readPair (value : Reader Value) : Reader (List String × Value) := fun s => do
  let (path, r) ← readKey s
  match skipSpaces r with
  | '=' :: r => do
    let (v, r) ← value (skipSpaces r)
    return ((path, v), r)
  | _ => none

/-- Reads the entries of an inline table, of which there is at least one, into a table. -/
def readEntries (value : Reader Value) (t : Section) (s : Text) : Option (Section × Text) := do
  let ((path, v), r) ← readPair value (skipSpaces s)
  let t ← addEntry path v t
  match skipSpaces r with
  | '}' :: r => some (t, r)
  | ',' :: r => if r.length < s.length then readEntries value t r else none
  | _ => none
termination_by s.length

/-- Reads an inline table after its opening brace. -/
def readInline (value : Reader Value) : Reader Value := fun s =>
  match skipSpaces s with
  | '}' :: r => some (.table [], r)
  | _ => (readEntries value (.header, []) s).map fun (t, r) => (.table (toTable t.2), r)

/-- Reads a value in which arrays and inline tables are at most `depth` deep. -/
def readValue (depth : Nat) : Reader Value := fun s =>
  match s with
  | '[' :: r =>
    match depth with
    | 0 => none
    | depth + 1 => (readItems (readValue depth) r).map fun (vs, r) => (.array vs, r)
  | '{' :: r =>
    match depth with
    | 0 => none
    | depth + 1 => readInline (readValue depth) r
  | s =>
    match readString s with
    | some (a, r) => some (.string (String.ofList a), r)
    | none => if s.head? = some '"' ∨ s.head? = some '\'' then none else readScalar s

/-! ## Lines -/

/-- A line of a document that says something. -/
inductive Line
  | header (path : List String)
  | element (path : List String)
  | entry (path : List String) (v : Value)

/-- How deep arrays and inline tables may be. -/
def maxDepth : Nat := 80

/-- Reads a header or an entry. -/
def readLine : Reader Line
  | '[' :: '[' :: s => do
    let (path, r) ← readKey (skipSpaces s)
    match skipSpaces r with
    | ']' :: ']' :: r => some (.element path, r)
    | _ => none
  | '[' :: s => do
    let (path, r) ← readKey (skipSpaces s)
    match skipSpaces r with
    | ']' :: r => some (.header path, r)
    | _ => none
  | s => (readPair (readValue maxDepth) s).map fun ((path, v), r) => (.entry path v, r)

/-- Reads the lines of a document. -/
def readLines (s : Text) : Option (List Line) :=
  match skipLines s with
  | [] => some []
  | t => do
    let (l, r) ← readLine t
    let r ← endOfLine? r
    if r.length < s.length then do
      let ls ← readLines r
      return l :: ls
    else none
termination_by s.length

/-- Puts a line into the document; `current` is the path of the table that is open. -/
def addLine (root : Section) (current : List String) : Line → Option (Section × List String)
  | .header path => do return (← openTable path root, path)
  | .element path => do return (← openElement path root, path)
  | .entry path v => do return (← alter .passage current (addEntry path v) root, current)

/-- Puts lines together. -/
def assemble (root : Section) (current : List String) : List Line → Option Section
  | [] => some root
  | l :: ls => do
    let (root, current) ← addLine root current l
    assemble root current ls

/-- Reads a document. A mark of the byte order may stand at its start. -/
def read (s : Text) : Option Table := do
  let lines ← readLines (if s.head? = some '\ufeff' then s.tail else s)
  let (_, entries) ← assemble (.header, []) [] lines
  return toTable entries

end SheetLint.Toml
