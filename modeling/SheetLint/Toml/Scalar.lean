import SheetLint.Toml.Lexical

/-
  Values that are single words without quotes: booleans, numbers, dates and times. A word is read
  whole: each notation says for a word which value it stands for, if it is in that notation.
-/

namespace SheetLint.Toml

/-! ## Numbers -/

/-- The digits of a number, in which single underscores may stand between two digits. -/
def digits? (isDigit : Char → Bool) : Text → Option Text
  | [] => none
  | [c] => if isDigit c then some [c] else none
  | c :: '_' :: s => if isDigit c then (digits? isDigit s).map (c :: ·) else none
  | c :: s => if isDigit c then (digits? isDigit s).map (c :: ·) else none

/-- Whether a character is a digit to a base up to 16. -/
def isDigitOf (base : Nat) (c : Char) : Bool := (hexValue? c).any (· < base)

/-- The sign of a number, and the text after it. -/
def cutSign : Text → Bool × Text
  | '-' :: s => (true, s)
  | '+' :: s => (false, s)
  | s => (false, s)

/-- A decimal whole number without a sign. No zero stands before another digit. -/
def decimal? (s : Text) : Option Text :=
  match digits? (isDigitOf 10) s with
  | some ('0' :: _ :: _) => none
  | ds => ds

/-- A number and its negative. -/
def signed (negative : Bool) (n : Nat) : Int := if negative then -(n : Int) else n

/-- The whole numbers that can be read at all. -/
def isReadable (i : Int) : Bool := -(Nat.pow 2 127 : Int) ≤ i && i < (Nat.pow 2 128 : Int)

/-- A whole number: decimal with an optional sign, or to the base 16, 8 or 2 without one. -/
def integer? (s : Text) : Option Int := do
  let based (base : Nat) (s : Text) : Option Int := do
    return (← ofDigits? base (← digits? (isDigitOf base) s) : Nat)
  let i ← match s with
    | '0' :: 'x' :: s => based 16 s
    | '0' :: 'o' :: s => based 8 s
    | '0' :: 'b' :: s => based 2 s
    | s =>
      let (negative, s) := cutSign s
      ((decimal? s).bind (ofDigits? 10)).map (signed negative)
  if isReadable i then some i else none

/-- The text before a character of a kind, and the text after it if there is one. -/
def cutAt (p : Char → Bool) (s : Text) : Text × Option Text :=
  (s.takeWhile (!p ·), (s.dropWhile (!p ·)).tail?)

/-- A number with a fraction, an exponent, or both, or one that is not finite. A number that is
    too great to be finite is none. -/
def float? (s : Text) : Option Binary64 := do
  let (negative, s) := cutSign s
  if s = ['i', 'n', 'f'] then return .infinite negative
  if s = ['n', 'a', 'n'] then return .nan
  let (s, power) := cutAt (fun c => c == 'e' || c == 'E') s
  let (whole, fraction) := cutAt (· == '.') s
  let whole ← decimal? whole
  let fraction ← match fraction with
    | some s => digits? (isDigitOf 10) s
    | none => if power.isSome then some [] else none
  let power ← match power with
    | some s =>
      let (down, s) := cutSign s
      (digits? (isDigitOf 10) s).bind (ofDigits? 10) |>.map (signed down)
    | none => some 0
  let digits ← ofDigits? 10 (whole ++ fraction)
  match Binary64.ofDecimal negative digits (power - fraction.length) with
  | .infinite _ => none
  | x => some x

/-! ## Dates and times -/

/-- Reads a number of exactly `n` decimal digits. -/
def readDigits (n : Nat) : Reader Nat := fun s =>
  let ds := s.take n
  if ds.length = n ∧ ds.all (isDigitOf 10) then
    (ofDigits? 10 ds).map fun v => (v, s.drop n)
  else none

/-- Reads a given character. -/
def readChar (c : Char) : Text → Option Text
  | d :: s => if c = d then some s else none
  | [] => none

/-- Every fourth year is a leap year, but of the full centuries only every fourth. -/
def isLeap (year : Nat) : Bool := year % 4 == 0 && (year % 100 != 0 || year % 400 == 0)

/-- The number of days of a month. -/
def daysOf (year month : Nat) : Nat :=
  if month = 2 then (if isLeap year then 29 else 28)
  else if month ∈ [4, 6, 9, 11] then 30
  else 31

/-- Reads a date such as `1979-05-27`. -/
def readDate : Reader Date := fun s => do
  let (year, s) ← readDigits 4 s
  let (month, s) ← readDigits 2 (← readChar '-' s)
  let (day, s) ← readDigits 2 (← readChar '-' s)
  if 1 ≤ month ∧ month ≤ 12 ∧ 1 ≤ day ∧ day ≤ daysOf year month then
    return (⟨year, month, day⟩, s)
  else none

/-- Reads a fraction of a second as nanoseconds; digits after the ninth do not count. -/
def readFraction : Reader Nat
  | '.' :: s =>
    let ds := s.takeWhile (isDigitOf 10)
    if ds.isEmpty then none
    else
      let nine := (ds ++ List.replicate 9 '0').take 9
      (ofDigits? 10 nine).map fun v => (v, s.dropWhile (isDigitOf 10))
  | s => some (0, s)

/-- Reads a time such as `07:32:00.5`. A minute may have a leap second. -/
def readTime : Reader Time := fun s => do
  let (hour, s) ← readDigits 2 s
  let (minute, s) ← readDigits 2 (← readChar ':' s)
  let (second, s) ← readDigits 2 (← readChar ':' s)
  let (nanosecond, s) ← readFraction s
  if hour ≤ 23 ∧ minute ≤ 59 ∧ second ≤ 60 then return (⟨hour, minute, second, nanosecond⟩, s)
  else none

/-- Reads a number of minutes such as `07:30`, at most those of one day. -/
def readOffset : Reader Nat := fun s => do
  let (hours, s) ← readDigits 2 s
  let (minutes, s) ← readDigits 2 (← readChar ':' s)
  let total := 60 * hours + minutes
  if minutes ≤ 59 ∧ total ≤ 1440 then return (total, s) else none

/-- Reads a zone such as `Z` or `-07:30`. -/
def readZone : Reader Zone
  | 'Z' :: s => some (.utc, s)
  | 'z' :: s => some (.utc, s)
  | '+' :: s => (readOffset s).map fun (n, s) => (.offset n, s)
  | '-' :: s => (readOffset s).map fun (n, s) => (.offset (-(n : Int)), s)
  | _ => none

/-- The mark between a date and a time. -/
def isTimeMark (c : Char) : Bool := c == 'T' || c == 't' || c == ' '

/-- Reads a time, and a zone if one follows. -/
def zonedTime? (s : Text) : Option (Time × Option Zone) :=
  match readTime s with
  | none => none
  | some (t, []) => some (t, none)
  | some (t, s) =>
    match readZone s with
    | some (z, []) => some (t, some z)
    | _ => none

/-- A date, a time, or both. -/
def datetime? (s : Text) : Option Datetime :=
  match readDate s with
  | none =>
    match readTime s with
    | some (t, []) => some (.time t)
    | _ => none
  | some (d, []) => some (.date d)
  | some (d, c :: s) =>
    if isTimeMark c then (zonedTime? s).map fun (t, z) => .both d t z else none

/-! ## Words -/

/-- The characters of a word without quotes. -/
def isWordChar (c : Char) : Bool :=
  c.isAlphanum || c == '+' || c == '-' || c == '_' || c == '.' || c == ':'

/-- The value of a word. -/
def scalar? (s : Text) : Option Value :=
  if s = ['t', 'r', 'u', 'e'] then some (.boolean true)
  else if s = ['f', 'a', 'l', 's', 'e'] then some (.boolean false)
  else
    ((integer? s).map .integer).or (((float? s).map .float).or ((datetime? s).map .datetime))

/-- Cuts a word off the front of a text. A date and a time may have one space between them. -/
def cutWord (s : Text) : Text × Text :=
  let word := s.takeWhile isWordChar
  match (readDate word), s.dropWhile isWordChar with
  | some (_, []), ' ' :: c :: r =>
    if c.isDigit then
      (word ++ ' ' :: (c :: r).takeWhile isWordChar, (c :: r).dropWhile isWordChar)
    else (word, ' ' :: c :: r)
  | _, r => (word, r)

/-- Reads a value that is a word without quotes. -/
def readScalar : Reader Value := fun s =>
  let (word, r) := cutWord s
  (scalar? word).map fun v => (v, r)

end SheetLint.Toml
