import Chip8.Number.Rounding

/-!
# Timers

A timer keeps nothing but the moment at which it runs out. Setting it to `v` moves that moment `v`
periods ahead; reading it gives the number of periods that are left, rounded to the nearest integer
and at most 255. Moments and periods are in nanoseconds.

The quotient is taken in double precision, with 53 significant bits.
-/

namespace Chip8

open Number

/-! ## Durations in double precision -/

namespace Duration

/-- One second in nanoseconds. -/
def second : Nat := 1000000000

/-- One second in units of 2⁻⁸², the last place of a nanosecond written as a double. -/
def unit : Nat := pow2 82

/-- A duration in seconds: the whole seconds and the rest are rounded apart and then added. -/
def seconds (ns : Nat) : Nat :=
  let whole := nearest 53 (ns / second) 1
  let rest := nearest 53 (ns % second * unit) second
  nearest 53 (whole * unit + rest) 1

/-- The quotient of two durations as an integer. Only quotients far below one half lose bits to the
unit, and those are zero with or without them. -/
def quotient (ns period : Nat) : Nat :=
  divNearest (nearest 53 (seconds ns * unit) (seconds period)) unit

/-- Whether `ns / period` is within 2⁻⁴¹ of the middle between two integers. -/
def nearTie (ns period : Nat) : Bool :=
  let twice := 2 * (ns % period)
  max twice period - min twice period ≤ period / pow2 40

/-- How many periods are in a duration, up to 255. The errors of the double quotient stay below
2⁻⁴² there, so it has to be worked out only near a tie. -/
def periods (ns period : Nat) : Nat :=
  min 255 (if nearTie ns period then quotient ns period else divNearest ns period)

end Duration

structure Timer where
  period : Nat
  target : Option Nat := none
  deriving DecidableEq, Repr

namespace Timer

/-- The clock counts up to 2⁶³ seconds, so a countdown has to end before. -/
def horizon : Nat := pow2 63 * Duration.second

/-- Starts a countdown of `ticks` periods, unless its end is beyond the clock's range. -/
def set? (t : Timer) (ticks now : Nat) : Option Timer :=
  let target := now + t.period * ticks
  if target < horizon then some { t with target := some target } else none

def get (t : Timer) (now : Nat) : UInt8 :=
  match t.target with
  | none => 0
  | some target =>
    if target ≤ now then 0
    -- The clock went back, and any number of empty periods fits in.
    else if t.period = 0 then 255
    else UInt8.ofNat (Duration.periods (target - now) t.period)

end Timer

end Chip8
