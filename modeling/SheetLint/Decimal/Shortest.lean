import SheetLint.Decimal.Binary64

/-
  The shortest decimal of a double-precision number: of all decimals that round to the number, one
  with the fewest digits, and of those the nearest to it. Candidates are, for one digit, for two,
  and so on, the two decimals with that many digits between which the number lies.
-/

namespace SheetLint.Binary64

/-- The decimal `digits * 10 ^ exponent`. -/
structure Decimal where
  digits : Nat
  exponent : Int
deriving DecidableEq, Repr

/-- The number of decimal places by which the fraction `n / d` differs from one between 1 and 10. -/
def decimalPlace (n d : Nat) : Int :=
  if d ≤ n then ((Nat.toDigits 10 (n / d)).length : Int) - 1
  else
    match (List.range 400).find? fun j => d ≤ n * Nat.pow 10 (j + 1) with
    | some j => -((j : Int) + 1)
    | none => -400

/-- The fractions that round to a number: they lie between `low / d` and `high / d`, and `mid / d`
    is the number itself. -/
structure Rounding where
  low : Nat
  mid : Nat
  high : Nat
  d : Nat
  /-- Whether the two ends round to the number too. -/
  closed : Bool

/-- The fractions that round to the number with the given mantissa and exponent of two. Below a
    power of two the numbers lie twice as close as above it. -/
def roundingOf (mantissa : Nat) (exponent : Int) : Rounding :=
  let (unit, d) :=
    if 0 ≤ exponent then (Nat.pow 2 exponent.toNat, 4) else (1, 4 * Nat.pow 2 (-exponent).toNat)
  let mid := 4 * mantissa * unit
  let below := if mantissa = Nat.pow 2 52 ∧ minExponent < exponent then unit else 2 * unit
  { low := mid - below, mid, high := mid + 2 * unit, d, closed := mantissa % 2 == 0 }

/-- Whether the fraction `n / e` rounds to the number. -/
def Rounding.holds (r : Rounding) (n e : Nat) : Bool :=
  if r.closed then r.low * e ≤ n * r.d && n * r.d ≤ r.high * e
  else r.low * e < n * r.d && n * r.d < r.high * e

/-- The decimal with the given exponent that rounds to the number and is nearest to it, of two that
    are as near the greater. -/
def Rounding.decimal? (r : Rounding) (exponent : Int) : Option Decimal :=
  let (up, down) :=
    if 0 ≤ exponent then (Nat.pow 10 exponent.toNat, 1) else (1, Nat.pow 10 (-exponent).toNat)
  let a := r.mid * down / (r.d * up)
  let left := r.holds (a * up) down
  let right := r.holds ((a + 1) * up) down
  let nearRight := (2 * a + 1) * up * r.d ≤ 2 * (r.mid * down)
  if left && (!right || !nearRight) then some ⟨a, exponent⟩
  else if right then some ⟨a + 1, exponent⟩
  else none

/-- The same decimal with one digit, if the digits are those of ten. -/
def Decimal.carry (d : Decimal) : Decimal :=
  if d.digits = 10 then ⟨1, d.exponent + 1⟩ else d

/-- The shortest decimal of the number with the given mantissa and exponent of two. A number just
    below a power of ten may round up to it. -/
def shortest (mantissa : Nat) (exponent : Int) : Decimal :=
  let r := roundingOf mantissa exponent
  let place := decimalPlace r.mid r.d
  (((List.range 17).findSome? fun (n : Nat) => r.decimal? (place - n)).getD ⟨0, 0⟩).carry

end SheetLint.Binary64
