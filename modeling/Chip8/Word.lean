import Chip8.Nibble

/-!
# Instruction words

An instruction is one 16-bit word. Its four nibbles are called family, X, Y and N; the low byte is
NN and the low twelve bits are NNN.
-/

namespace Chip8

abbrev Word := UInt16

namespace Word

def family (w : Word) : Nibble := ⟨w.toNat / 4096 % 16, by omega⟩

def x (w : Word) : Nibble := ⟨w.toNat / 256 % 16, by omega⟩

def y (w : Word) : Nibble := ⟨w.toNat / 16 % 16, by omega⟩

def n (w : Word) : Nibble := ⟨w.toNat % 16, by omega⟩

def nn (w : Word) : UInt8 := w.toUInt8

def nnn (w : Word) : UInt16 := w &&& 0x0FFF

/-- Two bytes as they lie in memory, high byte first. -/
def ofBytes (high low : UInt8) : Word := high.toUInt16 <<< 8 ||| low.toUInt16

end Word

end Chip8
