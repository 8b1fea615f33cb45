import Chip8.Keypad
import Chip8.Memory
import Chip8.Random
import Chip8.Registers
import Chip8.Screen
import Chip8.Settings
import Chip8.Timer

/-!
# The machine

All that a program can see or change. The clock is a reading in nanoseconds that the host moves as
it likes. Whatever is done to a machine answers the machine afterwards and an outcome.
-/

namespace Chip8

@[ext]
structure Machine (κ : Type) where
  memory : Memory := .fresh
  /-- The address of the next instruction. -/
  pc : UInt16 := UInt16.ofNat Memory.romStart
  registers : Registers := .zero
  index : Address := 0
  /-- The addresses of the calls that have not returned, oldest first. -/
  stack : Array UInt16 := #[]
  stackLimit : Option Nat := none
  delay : Timer
  sound : Timer
  now : Nat := 0
  screen : Screen := .blank
  keypad : κ
  random : Random

inductive Outcome where
  /-- The next instruction may follow at once. -/
  | proceed
  /-- A frame has to be shown first. -/
  | wait
  | failed (fault : Fault)
  /-- A timer was set to a moment beyond the clock's range, and the run cannot go on. -/
  | overflow
  deriving DecidableEq, Repr

namespace Machine

variable {κ : Type}

/-- A machine as it is switched on, if its timers can be clocked. The seed is `entropy` unless the
settings name one. -/
def new? (settings : Settings) (keypad : κ) (entropy : UInt64) : Option (Machine κ) :=
  settings.timerPeriod?.map fun period => {
    stackLimit := settings.stackLimit
    delay := { period }
    sound := { period }
    keypad
    random := .ofSeed (settings.seed.getD entropy) }

/-- Goes on with the result of something that may fail. After a fault nothing has changed. -/
@[inline]
def attempt {α : Type} (m : Machine κ) (result : Except Fault α) (next : α → Machine κ) :
    Machine κ × Outcome :=
  match result with
  | .ok a => (next a, .proceed)
  | .error fault => (m, .failed fault)

/-- Copies a program into memory. -/
def load (m : Machine κ) (rom : List UInt8) : Machine κ × Outcome :=
  m.attempt (m.memory.load rom) fun memory => { m with memory }

/-! ## The call stack -/

/-- Whether one more call may be open. -/
def roomToCall (m : Machine κ) : Except Fault Unit :=
  match m.stackLimit with
  | some limit => if limit ≤ m.stack.size then .error (.stackOverflow m.pc limit) else .ok ()
  | none => .ok ()

/-- The address of the newest call. -/
def newestCall (m : Machine κ) : Except Fault UInt16 :=
  match m.stack.back? with
  | some address => .ok address
  | none => .error (.stackUnderflow m.pc)

/-- Puts the current address on the stack. -/
def push (m : Machine κ) : Machine κ × Outcome :=
  m.attempt m.roomToCall fun _ => { m with stack := m.stack.push m.pc }

/-- Takes the newest address off the stack and continues there. -/
def pop (m : Machine κ) : Machine κ × Outcome :=
  m.attempt m.newestCall fun pc => { m with pc, stack := m.stack.pop }

/-! ## Timers as they read now -/

def delayNow (m : Machine κ) : UInt8 := m.delay.get m.now

def soundNow (m : Machine κ) : UInt8 := m.sound.get m.now

end Machine

end Chip8
