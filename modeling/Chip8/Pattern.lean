import Chip8.Word

/-!
# Patterns

A pattern such as `8XY4` says which words an instruction covers. Its first four characters stand
for the four nibbles of a word: a hexadecimal digit has to be there exactly, any other character
leaves the nibble open. A missing character leaves it open too.
-/

namespace Chip8.Pattern

/-- The digit that position `i` asks for, if it asks for one. -/
def literal? (pattern : String) (i : Nat) : Option Nibble :=
  pattern.toList[i]?.bind Nibble.ofDigit?

/-- A word from its four nibbles, the first on top. -/
def assemble (nibble : Nat → UInt16) : Word :=
  nibble 0 <<< 12 ||| nibble 1 <<< 8 ||| nibble 2 <<< 4 ||| nibble 3

/-- The bits that the pattern fixes: whole nibbles. -/
def mask (pattern : String) : Word :=
  assemble fun i => if (literal? pattern i).isSome then 0xF else 0

/-- The fixed bits themselves, with zeros where the pattern is open. -/
def digits (pattern : String) : Word :=
  assemble fun i => (literal? pattern i).elim 0 fun d => UInt16.ofNat d.val

end Chip8.Pattern
