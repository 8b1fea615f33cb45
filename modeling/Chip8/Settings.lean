import Chip8.Rate
import Chip8.Timer

/-!
# Settings

What can be chosen about a machine and about how fast it is driven.
-/

namespace Chip8

open Number

structure Settings where
  cpuRate : Single := Rate.standardCpu
  timerRate : Single := Rate.standardTimer
  /-- The seed of the random bytes. The host picks one if there is none. -/
  seed : Option UInt64 := none
  /-- How deep calls may nest. -/
  stackLimit : Option Nat := none
  deriving DecidableEq, Repr

/-- A time in seconds as whole nanoseconds. It may not be negative and has to stay below 2⁶⁴
seconds. -/
def nanoseconds? : Single → Option Nat
  | .finite negative significand exponent =>
    let units := significand * pow2 exponent
    if negative ∧ units ≠ 0 then none
    else if units < pow2 64 * Single.one then
      some (divNearest (units * Duration.second) Single.one)
    else none
  | _ => none

namespace Settings

/-- The seconds between two instructions. -/
def timeStep (s : Settings) : Single := s.cpuRate.inverse

/-- The nanoseconds between two timer ticks, if they can be counted. -/
def timerPeriod? (s : Settings) : Option Nat := nanoseconds? s.timerRate.inverse

end Settings

end Chip8
