/-!
# Nibbles

A nibble is four bits: a register number, a key, one hexadecimal digit of an instruction word.
-/

namespace Chip8

abbrev Nibble := Fin 16

-- With the zero that the numerals of `Fin` ask for.
instance Nibble.neZero : @NeZero Nat Zero.ofOfNat0 16 := ⟨by decide⟩

/-- The low nibble of a byte. -/
def Nibble.low (b : UInt8) : Nibble := ⟨b.toNat % 16, by omega⟩

/-- The byte as a nibble, if it is small enough. -/
def Nibble.ofByte? (b : UInt8) : Option Nibble :=
  if h : b.toNat < 16 then some ⟨b.toNat, h⟩ else none

def Nibble.toByte (d : Nibble) : UInt8 := UInt8.ofNat d.val

/-- The value of an ASCII hexadecimal digit, in either case. -/
def Nibble.ofDigit? (c : Char) : Option Nibble :=
  if '0' ≤ c ∧ c ≤ '9' then some (Fin.ofNat 16 (c.toNat - 48))
  else if 'A' ≤ c ∧ c ≤ 'F' then some (Fin.ofNat 16 (c.toNat - 55))
  else if 'a' ≤ c ∧ c ≤ 'f' then some (Fin.ofNat 16 (c.toNat - 87))
  else none

end Chip8
