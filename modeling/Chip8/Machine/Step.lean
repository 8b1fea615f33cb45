import Chip8.Machine.State
import Chip8.Table

/-!
# Execution

One instruction at a time: fetch the word at the program counter, find its operation, perform it.
Every operation places the program counter itself. It moves on by one word, by two for a skip that
is taken, and not at all while a key is awaited.
-/

namespace Chip8.Machine

variable {κ : Type}

/-! ## Parts of instructions -/

def advance (m : Machine κ) : Machine κ := { m with pc := m.pc + 2 }

/-- Moves on, over the next instruction if `skips`. -/
def skip (m : Machine κ) (skips : Bool) : Machine κ :=
  { m with pc := if skips then m.pc + 4 else m.pc + 2 }

/-- Sets VX and moves on. -/
def assign (m : Machine κ) (x : Nibble) (b : UInt8) : Machine κ :=
  { m with registers := m.registers.set x b }.advance

/-- The three decimal digits of a byte. -/
def decimalDigits (b : UInt8) : List UInt8 := [b / 100, b / 10 % 10, b % 10]

/-- The arithmetic of the 8XYN family. Sums and differences raise their flag after VX is written
and shifts before, which matters when VX is the flag register. -/
def arithmetic (v : Registers) (x y : Nibble) (op : Arithmetic) : Registers :=
  let a := v.get x
  let b := v.get y
  match op with
  | .copy => v.set x b
  | .or => v.set x (a ||| b)
  | .and => v.set x (a &&& b)
  | .xor => v.set x (a ^^^ b)
  | .add => (v.set x (a + b)).setFlag (256 ≤ a.toNat + b.toNat)
  -- The flag is the borrow, not its opposite.
  | .sub => (v.set x (a - b)).setFlag (a < b)
  | .subFrom => (v.set x (b - a)).setFlag (a < b)
  | .shiftRight => (v.setFlag (b &&& 0x01 != 0)).set x (b >>> 1)
  | .shiftLeft => (v.setFlag (b &&& 0x80 != 0)).set x (b <<< 1)

/-- Draws `n` bytes at I as a sprite. Rows past the end of memory are left out. -/
def drawSprite (m : Machine κ) (x y n : Nibble) : Machine κ :=
  let sprite := m.memory.clamped m.index.val n.val
  let (screen, erased) := m.screen.draw (m.registers.get x) (m.registers.get y) sprite
  { m with screen, registers := m.registers.setFlag erased }.advance

/-- Replaces the bytes from I on, if they all lie in memory. -/
def storeAtIndex (m : Machine κ) (bs : List UInt8) : Machine κ × Outcome :=
  -- The check comes apart from the store, so that the machine's memory is changed in place.
  m.attempt (Memory.check m.index.val bs.length) fun _ =>
    { m with memory := m.memory.overwrite m.index.val bs }.advance

/-- Stores the key that is down, or stays here to ask again in the next frame. -/
def awaitKey [Keypad κ] (m : Machine κ) (x : Nibble) : Machine κ × Outcome :=
  match Keypad.read m.keypad with
  | (some key, keypad) => ({ m with keypad }.assign x key.toByte, .proceed)
  | (none, keypad) => ({ m with keypad }, .wait)

/-- Asks for a key once and skips if `test` likes the answer to "is VX down". -/
def skipOnKey [Keypad κ] (m : Machine κ) (x : Nibble) (test : Bool → Bool) : Machine κ :=
  let (key, keypad) := Keypad.read m.keypad
  { m with keypad }.skip (test (key.any fun k => Nibble.toByte k == m.registers.get x))

/-! ## Instructions -/

def perform [Keypad κ] (m : Machine κ) (w : Word) (operation : Operation) : Machine κ × Outcome :=
  let vx := m.registers.get w.x
  let vy := m.registers.get w.y
  match operation with
  | .native => (m, .failed (.unsupported w m.pc))
  | .clearScreen => ({ m with screen := .blank }.advance, .wait)
  | .ret => m.attempt m.newestCall fun pc => { m with pc, stack := m.stack.pop }.advance
  | .jump => ({ m with pc := w.nnn }, .proceed)
  | .jumpOffset => ({ m with pc := w.nnn + (m.registers.get 0).toUInt16 }, .proceed)
  | .call => m.attempt m.roomToCall fun _ => { m with pc := w.nnn, stack := m.stack.push m.pc }
  | .skipIfByte => (m.skip (vx == w.nn), .proceed)
  | .skipUnlessByte => (m.skip (vx != w.nn), .proceed)
  | .skipIfSame => (m.skip (vx == vy), .proceed)
  | .skipUnlessSame => (m.skip (vx != vy), .proceed)
  | .setByte => (m.assign w.x w.nn, .proceed)
  | .addByte => (m.assign w.x (vx + w.nn), .proceed)
  | .arithmetic op => ({ m with registers := arithmetic m.registers w.x w.y op }.advance, .proceed)
  | .setIndex => ({ m with index := .ofValue w.nnn.toUInt32 }.advance, .proceed)
  | .addIndex => ({ m with index := m.index.forward vx.toNat }.advance, .proceed)
  | .random =>
    let (b, random) := m.random.draw
    ({ m with random }.assign w.x (b &&& w.nn), .proceed)
  | .draw => (m.drawSprite w.x w.y w.n, .wait)
  | .skipIfKey => (m.skipOnKey w.x id, .proceed)
  | .skipUnlessKey => (m.skipOnKey w.x not, .proceed)
  | .awaitKey => m.awaitKey w.x
  | .readDelay => (m.assign w.x m.delayNow, .proceed)
  | .setDelay =>
    match m.delay.set? vx.toNat m.now with
    | some delay => ({ m with delay }.advance, .proceed)
    | none => (m, .overflow)
  | .setSound =>
    match m.sound.set? vx.toNat m.now with
    | some sound => ({ m with sound }.advance, .proceed)
    | none => (m, .overflow)
  | .glyph =>
    ({ m with index := Fin.ofNat 4096 (Memory.glyphAddress (.low vx)) }.advance, .proceed)
  | .decimal => m.storeAtIndex (decimalDigits vx)
  | .storeRegisters => m.storeAtIndex (m.registers.toList.take (w.x.val + 1))
  | .loadRegisters =>
    m.attempt (m.memory.region m.index.val (w.x.val + 1)) fun bytes =>
      { m with registers := m.registers.load bytes }.advance

/-- Performs a word as if it had been fetched at the program counter. -/
def execute [Keypad κ] (m : Machine κ) (w : Word) : Machine κ × Outcome :=
  match Table.standard.lookup w with
  | some definition => m.perform w definition.operation
  | none => (m, .failed (.unsupported w m.pc))

/-- The word at the program counter. -/
def fetch (m : Machine κ) : Except Fault Word := m.memory.word m.pc.toNat

/-- One instruction. -/
def step [Keypad κ] (m : Machine κ) : Machine κ × Outcome :=
  match m.fetch with
  | .ok w => m.execute w
  | .error fault => (m, .failed fault)

end Chip8.Machine
