import Chip8.Nibble

/-!
# Keypads

A program asks its keypad which key is down. What answers is up to the host: a keypad is any state
that answers a read.
-/

namespace Chip8

class Keypad (κ : Type) where
  /-- The key that is down, if one is, and the keypad after the question. -/
  read : κ → Option Nibble × κ

/-- Answers prepared in advance. The last answer stays, and without any no key is ever down. -/
structure Script where
  answers : List (Option Nibble) := []
  reads : Nat := 0
  deriving DecidableEq, Repr

def Script.read (s : Script) : Option Nibble × Script :=
  match s.answers with
  | [] => (none, { s with reads := s.reads + 1 })
  | [key] => (key, { s with reads := s.reads + 1 })
  | key :: later => (key, { answers := later, reads := s.reads + 1 })

instance : Keypad Script := ⟨Script.read⟩

/-- The key that is held down now. Reading does not release it. -/
structure HeldKey where
  key : Option Nibble := none
  deriving DecidableEq, Repr

instance : Keypad HeldKey := ⟨fun k => (k.key, k)⟩

end Chip8
