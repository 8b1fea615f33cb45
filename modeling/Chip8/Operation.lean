/-!
# Operations

What an instruction does, with its operands left in the word.
-/

namespace Chip8

/-- The register-to-register operations of the 8XYN family. -/
inductive Arithmetic where
  | copy
  | or
  | and
  | xor
  | add
  | sub
  | shiftRight
  /-- VY minus VX, stored in VX. -/
  | subFrom
  | shiftLeft
  deriving DecidableEq, Repr

inductive Operation where
  /-- Host machine code, which is never run. -/
  | native
  | clearScreen
  | ret
  | jump
  | jumpOffset
  | call
  | skipIfByte
  | skipUnlessByte
  | skipIfSame
  | skipUnlessSame
  | setByte
  | addByte
  | arithmetic (op : Arithmetic)
  | setIndex
  | addIndex
  | random
  | draw
  | skipIfKey
  | skipUnlessKey
  | awaitKey
  | readDelay
  | setDelay
  | setSound
  | glyph
  | decimal
  | storeRegisters
  | loadRegisters
  deriving DecidableEq, Repr

end Chip8
