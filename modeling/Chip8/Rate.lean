import Chip8.Number.Numeral

/-!
# Rates

How often something happens in a second: a finite number above zero.
-/

namespace Chip8.Rate

open Number

/-- A rate as the user writes it. -/
def parse? (s : String) : Option Single :=
  (Numeral.ofList? s.toList).bind fun n =>
    if n.toSingle.isPositive then some n.toSingle else none

/-- What is said about text that is no rate. -/
def invalid (s : String) : String := "Invalid rate: '" ++ s ++ "', expected a positive number"

/-- A rate as the user writes it, or what is said about the text. -/
def read (s : String) : Except String Single :=
  match parse? s with
  | some rate => .ok rate
  | none => .error (invalid s)

/-- Instructions in a second, unless asked otherwise: 700. -/
def standardCpu : Single := .ofUnits false (700 * Single.one) 1

/-- Timer ticks in a second, unless asked otherwise: 1. -/
def standardTimer : Single := .ofUnits false Single.one 1

end Chip8.Rate
