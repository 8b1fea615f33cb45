import Chip8.Pattern
import Chip8.Operation

/-!
# Dispatch

A definition ties a pattern to an operation. Of the definitions that respond to a word the first
registered one counts, so `00EE` can stand before `0NNN`. A table keeps, for each family, the
indices of the definitions that can respond to words of that family, and a lookup scans only those.
-/

namespace Chip8

/-- A definition carries its pattern's bits ready made. -/
structure Definition where
  pattern : String
  operation : Operation
  description : String
  mask : Word := Pattern.mask pattern
  digits : Word := Pattern.digits pattern
  mask_eq : mask = Pattern.mask pattern := by rfl
  digits_eq : digits = Pattern.digits pattern := by rfl

namespace Definition

def ofPattern (pattern : String) (operation : Operation) (description : String) : Definition :=
  { pattern, operation, description }

def respondsTo (d : Definition) (w : Word) : Bool := w &&& d.mask == d.digits

/-- The family that the pattern's first character names, if it names one. -/
def family? (d : Definition) : Option Nibble :=
  if d.mask &&& 0xF000 == 0xF000 then some (Word.family d.digits) else none

/-- Whether the first character lets the family through. -/
def admits (d : Definition) (family : Nibble) : Bool := d.family?.all (· == family)

end Definition

structure Table where
  definitions : Array Definition
  families : Vector (List Nat) 16

namespace Table

/-- The indices of the definitions that admit a family, in registration order. -/
def indices (ds : List Definition) (family : Nibble) : List Nat :=
  ds.zipIdx.filterMap fun (d, i) => if d.admits family then some i else none

def ofList (ds : List Definition) : Table where
  definitions := ds.toArray
  families := Vector.ofFn (indices ds)

/-- The first registered definition that responds to the word. -/
def lookup (t : Table) (w : Word) : Option Definition :=
  (t.families.get w.family).findSome? fun i => t.definitions[i]?.filter (·.respondsTo w)

end Table

/-! ## The instruction set -/

/-- All instructions. `0NNN` stands last because `00EE` and `00E0` are words of its form. -/
def instructionSet : List Definition := [
  .ofPattern "6XNN" .setByte "Store NN in VX",
  .ofPattern "8XY0" (.arithmetic .copy) "Store VY in VX",
  .ofPattern "7XNN" .addByte "Add NN to VX",
  .ofPattern "8XY4" (.arithmetic .add) "Add VY to VX",
  .ofPattern "8XY5" (.arithmetic .sub) "Subtract VY from VX",
  .ofPattern "8XY7" (.arithmetic .subFrom) "Store VY - VX in VX",
  .ofPattern "8XY2" (.arithmetic .and) "Store VX & VY in VX",
  .ofPattern "8XY1" (.arithmetic .or) "Store VX | VY in VX",
  .ofPattern "8XY3" (.arithmetic .xor) "Store VX ^ VY in VX",
  .ofPattern "8XY6" (.arithmetic .shiftRight) "Shift VY right, store in VX",
  .ofPattern "8XYE" (.arithmetic .shiftLeft) "Shift VY left, store in VX",
  .ofPattern "CXNN" .random "Set VX to random masked by NN",
  .ofPattern "1NNN" .jump "Jump to NNN",
  .ofPattern "BNNN" .jumpOffset "Jump to NNN plus V0",
  .ofPattern "2NNN" .call "Execute subroutine at NNN",
  .ofPattern "00EE" .ret "Return from subroutine",
  .ofPattern "3XNN" .skipIfByte "Skip if VX == NN",
  .ofPattern "5XY0" .skipIfSame "Skip if VX == VY",
  .ofPattern "4XNN" .skipUnlessByte "Skip if VX != NN",
  .ofPattern "9XY0" .skipUnlessSame "Skip if VX != VY",
  .ofPattern "FX15" .setDelay "Set delay timer to VX",
  .ofPattern "FX18" .setSound "Set sound timer to VX",
  .ofPattern "FX07" .readDelay "Set VX to value in delay timer",
  .ofPattern "ANNN" .setIndex "Set I to NNN",
  .ofPattern "FX1E" .addIndex "Add VX to I",
  .ofPattern "FX33" .decimal "Store BCD of VX at I, I+1 and I+2",
  .ofPattern "FX55" .storeRegisters "Dump V0-VX at address I",
  .ofPattern "FX65" .loadRegisters "Restore V0-VX from address I",
  .ofPattern "DXYN" .draw "Draw sprite at address I at VX VY",
  .ofPattern "00E0" .clearScreen "Clear the screen",
  .ofPattern "FX29" .glyph "Set I to the font character for VX",
  .ofPattern "FX0A" .awaitKey "Wait for keypad input, store result in VX",
  .ofPattern "EX9E" .skipIfKey "Skip if VX == key pressed",
  .ofPattern "EXA1" .skipUnlessKey "Skip if VX != key pressed",
  .ofPattern "0NNN" .native "Execute native code - UNSUPPORTED"]

def Table.standard : Table := .ofList instructionSet

end Chip8
