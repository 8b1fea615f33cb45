import Chip8.Nibble

/-!
# Registers

Sixteen byte registers V0 to VF and the twelve-bit address register I. VF doubles as the flag that
arithmetic and drawing report through. A write takes any 32-bit value and keeps the low bits.
-/

namespace Chip8

@[ext]
structure Registers where
  values : Vector UInt8 16
  deriving DecidableEq, Repr

namespace Registers

def zero : Registers := ⟨Vector.replicate 16 0⟩

def get (v : Registers) (x : Nibble) : UInt8 := v.values[x]

def set (v : Registers) (x : Nibble) (b : UInt8) : Registers := ⟨v.values.set x b⟩

/-- Stores the low eight bits of a value. -/
def write (v : Registers) (x : Nibble) (value : UInt32) : Registers := v.set x value.toUInt8

def flag (v : Registers) : UInt8 := v.get 15

def setFlag (v : Registers) (raised : Bool) : Registers := v.set 15 (if raised then 1 else 0)

/-- Stores the bytes in V0, V1, and so on; bytes past VF are dropped. -/
def load (v : Registers) (bs : List UInt8) : Registers :=
  ⟨Vector.ofFn fun i => bs[i.val]?.getD (v.get i)⟩

def toList (v : Registers) : List UInt8 := v.values.toList

def largest (v : Registers) : UInt8 := v.toList.foldl max 0

end Registers

/-- An address in memory, which is all that I can hold. -/
abbrev Address := Fin 4096

instance Address.neZero : @NeZero Nat Zero.ofOfNat0 4096 := ⟨by decide⟩

/-- The low twelve bits of a value. -/
def Address.ofValue (value : UInt32) : Address := ⟨value.toNat % 4096, by omega⟩

/-- An address moved forward by `n`, around the end of memory. -/
def Address.forward (a : Address) (n : Nat) : Address := ⟨(a.val + n) % 4096, by omega⟩

end Chip8
