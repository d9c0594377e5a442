import SheetLint.Decimal.Binary64
import SheetLint.Text.Blank

/-
  Values of a TOML document. The entries of a table are held sorted by key, each key once, so two
  tables with the same entries are the same list.
-/

namespace SheetLint.Toml

/-- A day of the calendar. -/
structure Date where
  year : Nat
  month : Nat
  day : Nat
deriving DecidableEq, Repr

/-- A time of day. -/
structure Time where
  hour : Nat
  minute : Nat
  second : Nat
  nanosecond : Nat
deriving DecidableEq, Repr

/-- How far a clock is from universal time. -/
inductive Zone
  | utc
  | offset (minutes : Int)
deriving DecidableEq, Repr

/-- A date, a time, or both, which may come with a zone. -/
inductive Datetime
  | date (d : Date)
  | time (t : Time)
  | both (d : Date) (t : Time) (zone : Option Zone)
deriving DecidableEq, Repr

/-- A value of a document. -/
inductive Value
  | string (s : String)
  | integer (i : Int)
  | float (x : Binary64)
  | boolean (b : Bool)
  | datetime (t : Datetime)
  | array (items : List Value)
  | table (entries : List (String × Value))

/-- The entries of a table, sorted by key. -/
abbrev Table := List (String × Value)

end SheetLint.Toml
