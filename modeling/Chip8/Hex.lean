/-!
# Hexadecimal text

Addresses, words and register values are shown in upper-case hexadecimal.
-/

namespace Chip8

/-- Upper-case hexadecimal, filled up with zeros to at least `width` digits. -/
def hex (width n : Nat) : String :=
  String.ofList (((Nat.toDigits 16 n).map Char.toUpper).leftpad width '0')

/-- As `hex`, after `0x`. -/
def hexWord (width n : Nat) : String := "0x" ++ hex width n

/-- A list of numbers as `[0A, FF]`, each with at least `width` digits. -/
def hexList (width : Nat) (ns : List Nat) : String :=
  "[" ++ ", ".intercalate (ns.map (hex width)) ++ "]"

end Chip8
