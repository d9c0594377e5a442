/-
  Numbers with 53 binary digits. A number is a mantissa below 2^53 times a power of two between
  2^-1074 and 2^971. A decimal is rounded to the nearest of them, a tie to the even mantissa, and
  a number has one shortest decimal that rounds back to it.
-/

namespace SheetLint

/-- A double-precision number. -/
inductive Binary64
  /-- The number `mantissa * 2 ^ exponent`, or its negative. -/
  | finite (negative : Bool) (mantissa : Nat) (exponent : Int)
  | infinite (negative : Bool)
  | nan
deriving DecidableEq, Repr

namespace Binary64

/-- The least exponent of two. -/
def minExponent : Int := -1074

/-- The greatest exponent of two. -/
def maxExponent : Int := 971

/-- The quotient of two numbers, rounded to the nearest whole one, a tie to the even one. -/
def roundDiv (n d : Nat) : Nat :=
  let q := n / d
  let twice := 2 * (n % d)
  if twice < d then q
  else if d < twice then q + 1
  else if q % 2 = 0 then q else q + 1

/-- The fraction `n / d` divided by a power of two. -/
def scale (n d : Nat) (exponent : Int) : Nat × Nat :=
  if 0 ≤ exponent then (n, d * Nat.pow 2 exponent.toNat) else (n * Nat.pow 2 (-exponent).toNat, d)

/-- The number nearest to the fraction `n / d`. -/
def ofFraction (negative : Bool) (n d : Nat) : Binary64 :=
  if n = 0 then finite negative 0 minExponent
  else
    let low : Int := max ((n.log2 : Int) - d.log2 - 53) minExponent
    let (n₁, d₁) := scale n d low
    let e : Int := if Nat.pow 2 53 ≤ n₁ / d₁ then low + 1 else low
    let (n₂, d₂) := scale n d e
    let m := roundDiv n₂ d₂
    let (m, e) := if m = Nat.pow 2 53 then (Nat.pow 2 52, e + 1) else (m, e)
    if maxExponent < e then infinite negative else finite negative m e

/-- The number nearest to the decimal `digits * 10 ^ exponent`. -/
def ofDecimal (negative : Bool) (digits : Nat) (exponent : Int) : Binary64 :=
  if 0 ≤ exponent then ofFraction negative (digits * Nat.pow 10 exponent.toNat) 1
  else ofFraction negative digits (Nat.pow 10 (-exponent).toNat)

end Binary64

end SheetLint
