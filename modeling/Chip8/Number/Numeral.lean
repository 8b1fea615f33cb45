import Chip8.Number.Single

/-!
# Decimal numerals

Text such as `+12.5e-3`: an optional sign, digits with an optional point and at least one digit on
either side of it, and an optional exponent. A numeral stands for an exact decimal fraction and is
rounded once, to the nearest single-precision number.
-/

namespace Chip8.Number

/-- The number `digits · 10 ^ exponent`, with a sign. -/
structure Numeral where
  negative : Bool
  digits : Nat
  exponent : Int
  deriving DecidableEq, Repr

namespace Numeral

/-! ## Reading -/

/-- The value of a string of digits. -/
def valueOf (cs : List Char) : Nat :=
  cs.foldl (fun acc c => 10 * acc + (c.toNat - 48)) 0

/-- An optional sign and what follows it. -/
def splitSign : List Char → Bool × List Char
  | '-' :: cs => (true, cs)
  | '+' :: cs => (false, cs)
  | cs => (false, cs)

/-- The digits after a point, if a point comes next, and the rest. -/
def splitFraction : List Char → List Char × List Char
  | '.' :: cs => (cs.takeWhile Char.isDigit, cs.dropWhile Char.isDigit)
  | cs => ([], cs)

/-- What is left after the digits has to be empty or an exponent. -/
def exponent? : List Char → Option Int
  | [] => some 0
  | c :: cs =>
    let (negative, ds) := splitSign cs
    if (c = 'e' ∨ c = 'E') ∧ ds ≠ [] ∧ ds.all Char.isDigit then
      some (if negative then -(valueOf ds : Int) else valueOf ds)
    else none

def ofList? (cs : List Char) : Option Numeral :=
  let (negative, cs) := splitSign cs
  let whole := cs.takeWhile Char.isDigit
  let (fraction, rest) := splitFraction (cs.dropWhile Char.isDigit)
  if whole ++ fraction = [] then none
  else (exponent? rest).map fun e =>
    { negative, digits := valueOf (whole ++ fraction), exponent := e - fraction.length }

/-! ## Rounding -/

/-- The exponent of the first power of ten above the number. -/
def magnitude (n : Numeral) : Int := (Nat.toDigits 10 n.digits).length + n.exponent

/-- The nearest single. Numbers of 10⁴⁰ and more are infinite and numbers below 10⁻⁵⁰ are zero
without a look at their digits, so that no power of ten grows out of hand. -/
def toSingle (n : Numeral) : Single :=
  if n.digits = 0 ∨ n.magnitude < -50 then .finite n.negative 0 0
  else if 40 < n.magnitude then .infinite n.negative
  else if 0 ≤ n.exponent then
    .ofUnits n.negative (n.digits * Nat.pow 10 n.exponent.toNat * Single.one) 1
  else .ofUnits n.negative (n.digits * Single.one) (Nat.pow 10 (-n.exponent).toNat)

end Numeral

end Chip8.Number
