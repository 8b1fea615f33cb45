import Chip8.Machine.Step
import Chip8.Pacing
import Chip8.Terminal.Key

/-!
# Sessions

A machine driven from a terminal: its pacer, the key that is held, and whether the user wants to
leave. Terminals seldom tell when a key goes up, so the host lets a key go some time after it was
pressed.
-/

namespace Chip8.Terminal

open Number

structure Session where
  machine : Machine HeldKey
  pacer : Pacer
  quit : Bool := false

inductive StartError where
  /-- The timer rate gives no period that the clock can count. -/
  | unclocked
  | rejected (fault : Fault)
  deriving DecidableEq, Repr

def StartError.message : StartError → String
  | unclocked => "Timer period is out of range"
  | rejected fault => "Failed to load ROM into CHIP-8 memory: " ++ fault.message

/-- How long a key counts as held, in nanoseconds. -/
def keyTimeout : Nat := Duration.second / 10

namespace Session

def start (rom : List UInt8) (settings : Settings) (entropy : UInt64) :
    Except StartError Session :=
  match Machine.new? settings ({} : HeldKey) entropy with
  | none => .error .unclocked
  | some machine =>
    match machine.load rom with
    | (_, .failed fault) => .error (.rejected fault)
    | (machine, _) => .ok { machine, pacer := settings.pacer }

def hold (s : Session) (key : Option Nibble) : Session :=
  { s with machine := { s.machine with keypad := ⟨key⟩ } }

def handle (s : Session) (event : KeyEvent) : Session :=
  match event.request with
  | .nothing => s
  | .quit => { s with quit := true }
  | .press key => s.hold (some key)

/-- Lets the held key go. -/
def expire (s : Session) : Session := s.hold none

/-- Accounts for a frame; `none` as in `Pacer.spend`. -/
def update (s : Session) (fuel : Nat) (dt : Single) : Option (Session × Outcome) :=
  (s.pacer.update Machine.step fuel dt s.machine).map fun (pacer, machine, outcome) =>
    ({ s with machine, pacer }, outcome)

def steps (s : Session) (n : Nat) : Session × List Outcome :=
  let (machine, outcomes) := stepUpTo Machine.step n s.machine
  ({ s with machine }, outcomes)

end Session

end Chip8.Terminal
