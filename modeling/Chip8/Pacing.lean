import Chip8.Machine.State

/-!
# Pacing

Elapsed time is turned into instructions. A pacer holds a budget of seconds: each frame adds its
length, each instruction costs one time step, and an instruction that waits for the next frame
forfeits the rest. The loop is written for any state that can make a step, so a machine and a
machine with a journal are paced alike.
-/

namespace Chip8

open Number

/-- Longer frames count as this long, a quarter of a second. -/
def longestFrame : Single := .ofUnits false Single.one 4

structure Pacer where
  timeStep : Single
  budget : Single := .zero
  deriving DecidableEq, Repr

variable {σ : Type}

/-- Makes up to `n` steps and stops after the first that is not followed by another. The outcomes
are those of the steps made. -/
def stepUpTo (step : σ → σ × Outcome) : Nat → σ → σ × List Outcome
  | 0, s => (s, [])
  | n + 1, s =>
    match step s with
    | (s, .failed fault) => (s, [.failed fault])
    | (s, .overflow) => (s, [.overflow])
    | (s, outcome) =>
      let (s, outcomes) := stepUpTo step n s
      (s, outcome :: outcomes)

namespace Pacer

/-- Makes steps while the budget covers one. A time step can be too small to lower the budget, and
then only the steps themselves end the loop; `none` means that it did not end within `fuel`
steps. -/
def spend (step : σ → σ × Outcome) (timeStep : Single) :
    (fuel : Nat) → (budget : Single) → σ → Option (Single × σ × Outcome)
  | 0, _, _ => none
  | fuel + 1, budget, s =>
    if budget.ge timeStep then
      match step s with
      | (s, .proceed) => spend step timeStep fuel (budget.sub timeStep) s
      | (s, .wait) => some (.zero, s, .wait)
      | (s, outcome) => some (budget.sub timeStep, s, outcome)
    else some (budget, s, .proceed)

/-- Accounts for a frame of `dt` seconds. -/
def update (p : Pacer) (step : σ → σ × Outcome) (fuel : Nat) (dt : Single) (s : σ) :
    Option (Pacer × σ × Outcome) :=
  (spend step p.timeStep fuel (p.budget.add (dt.min longestFrame)) s).map
    fun (budget, s, outcome) => ({ p with budget }, s, outcome)

end Pacer

def Settings.pacer (s : Settings) : Pacer := { timeStep := s.timeStep }

end Chip8
