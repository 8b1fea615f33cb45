import Chip8.Hex
import Chip8.Word

/-!
# Faults

The ways in which a program, or the image it is loaded from, goes wrong. Each ends the run.
-/

namespace Chip8

inductive Fault where
  | unsupported (word : Word) (pc : UInt16)
  | romTooLarge (size limit : Nat)
  | outOfBounds (address : Nat)
  | stackUnderflow (pc : UInt16)
  | stackOverflow (pc : UInt16) (limit : Nat)
  deriving DecidableEq, Repr

def Fault.message : Fault → String
  | unsupported word pc =>
    "Unsupported instruction " ++ hexWord 4 word.toNat ++ " at " ++ hexWord 3 pc.toNat
  | romTooLarge size limit =>
    "ROM is too large (" ++ toString size ++ " bytes), max size is " ++ toString limit ++ " bytes"
  | outOfBounds address => "Memory access out of bounds at address " ++ hexWord 4 address
  | stackUnderflow pc =>
    "Stack underflow at " ++ hexWord 3 pc.toNat ++ ": return with an empty call stack"
  | stackOverflow pc limit =>
    "Stack overflow at " ++ hexWord 3 pc.toNat ++ ": more than " ++ toString limit ++ " nested calls"

end Chip8
