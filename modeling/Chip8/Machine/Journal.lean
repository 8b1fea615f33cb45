import Chip8.Hex
import Chip8.Machine.Step

/-!
# The journal

What a machine says while it works. The lines of an operation depend only on the machine before it,
so they are functions beside the operations and not part of them.
-/

namespace Chip8

inductive Level where
  | trace
  | debug
  | info
  | warn
  | error
  deriving DecidableEq, Repr

structure Entry where
  level : Level
  text : String
  deriving DecidableEq, Repr

def Level.name : Level → String
  | trace => "TRACE"
  | debug => "DEBUG"
  | info => "INFO"
  | warn => "WARN"
  | error => "ERROR"

def Entry.line (e : Entry) : String := e.level.name ++ ": " ++ e.text

/-- Whether a given verbosity lets the level through. -/
def Level.shownAt (level : Level) (verbosity : Nat) : Bool :=
  match level with
  | error | warn | info => true
  | debug => 1 ≤ verbosity
  | trace => 2 ≤ verbosity

namespace Machine

variable {κ : Type}

def loadEntries (m : Machine κ) (rom : List UInt8) : List Entry :=
  match m.memory.load rom with
  | .ok _ =>
    [⟨.info, "Loaded " ++ toString rom.length ++ " byte program at " ++ hexWord 3 Memory.romStart⟩]
  | .error _ => []

def fetchEntries (m : Machine κ) : List Entry :=
  [⟨.trace, "Fetching instruction from " ++ hexWord 3 m.pc.toNat⟩]

/-- A timer tells what it was set to, once it is set. -/
def timerEntries (timer : Timer) (ticks now : Nat) : List Entry :=
  match timer.set? ticks now with
  | some _ => [⟨.debug, "Timer target set to " ++ toString ticks ++ " periods from now"⟩]
  | none => []

def executeEntries (m : Machine κ) (w : Word) : List Entry :=
  let state : List Entry := [
    ⟨.trace, "V Registers: " ++ hexList 2 (m.registers.toList.map UInt8.toNat)⟩,
    ⟨.trace, "I Register: " ++ hexWord 3 m.index.val⟩,
    ⟨.trace, "Stack: " ++ hexList 3 (m.stack.toList.map UInt16.toNat)⟩]
  state ++ match Table.standard.lookup w with
    | none =>
      [⟨.warn, "No instruction for " ++ hexWord 4 w.toNat ++ " at " ++ hexWord 3 m.pc.toNat⟩]
    | some d =>
      let ticks := (m.registers.get w.x).toNat
      ⟨.debug, "Executing instruction for " ++ d.pattern ++ ", with data " ++ hexWord 4 w.toNat
        ++ " - " ++ d.description⟩ ::
      match d.operation with
      | .setDelay => timerEntries m.delay ticks m.now
      | .setSound => timerEntries m.sound ticks m.now
      | _ => []

def stepEntries (m : Machine κ) : List Entry :=
  m.fetchEntries ++ match m.fetch with
    | .ok w => m.executeEntries w
    | .error _ => []

end Machine

/-- A machine with the journal of what it has done so far. -/
structure Recorded (κ : Type) where
  machine : Machine κ
  journal : Array Entry := #[]

namespace Recorded

variable {κ : Type}

def record (r : Recorded κ) (entries : List Entry) (result : Machine κ × Outcome) :
    Recorded κ × Outcome :=
  ({ machine := result.1, journal := r.journal ++ entries }, result.2)

def load (r : Recorded κ) (rom : List UInt8) : Recorded κ × Outcome :=
  r.record (r.machine.loadEntries rom) (r.machine.load rom)

def execute [Keypad κ] (r : Recorded κ) (w : Word) : Recorded κ × Outcome :=
  r.record (r.machine.executeEntries w) (r.machine.execute w)

def step [Keypad κ] (r : Recorded κ) : Recorded κ × Outcome :=
  r.record r.machine.stepEntries r.machine.step

end Recorded

end Chip8
