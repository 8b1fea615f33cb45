import Chip8.Fault

/-!
# Memory

4096 bytes. The glyphs of the sixteen digits lie at the bottom and programs start at 0x200. Single
bytes, words and whole regions can be read; an access that leaves memory is a fault.
-/

namespace Chip8

/-- Sprites of the digits 0 to F, five rows each. -/
def font : List UInt8 := [
  0xF0, 0x90, 0x90, 0x90, 0xF0, -- 0
  0x20, 0x60, 0x20, 0x20, 0x70, -- 1
  0xF0, 0x10, 0xF0, 0x80, 0xF0, -- 2
  0xF0, 0x10, 0xF0, 0x10, 0xF0, -- 3
  0x90, 0x90, 0xF0, 0x10, 0x10, -- 4
  0xF0, 0x80, 0xF0, 0x10, 0xF0, -- 5
  0xF0, 0x80, 0xF0, 0x90, 0xF0, -- 6
  0xF0, 0x10, 0x20, 0x40, 0x40, -- 7
  0xF0, 0x90, 0xF0, 0x90, 0xF0, -- 8
  0xF0, 0x90, 0xF0, 0x10, 0xF0, -- 9
  0xF0, 0x90, 0xF0, 0x90, 0x90, -- A
  0xE0, 0x90, 0xE0, 0x90, 0xE0, -- B
  0xF0, 0x80, 0x80, 0x80, 0xF0, -- C
  0xE0, 0x90, 0x90, 0x90, 0xE0, -- D
  0xF0, 0x80, 0xF0, 0x80, 0xF0, -- E
  0xF0, 0x80, 0xF0, 0x80, 0x80] -- F

@[ext]
structure Memory where
  bytes : Vector UInt8 4096
  deriving DecidableEq

namespace Memory

def size : Nat := 4096

/-- Where programs are loaded and where they start. -/
def romStart : Nat := 0x200

def romLimit : Nat := size - romStart

/-- The font, and zeros above it. -/
def fresh : Memory := ⟨Vector.ofFn fun i => font.getD i 0⟩

/-- Where the glyph of a digit lies. -/
def glyphAddress (d : Nibble) : Nat := 5 * d.val

/-! ## Reading -/

def read (m : Memory) (a : Nat) : Except Fault UInt8 :=
  if h : a < 4096 then .ok m.bytes[a] else .error (.outOfBounds a)

/-- The bytes from `a` on, at most `len`, cut short at the end of memory. -/
def clamped (m : Memory) (a len : Nat) : List UInt8 :=
  (m.bytes.toArray.extract a (a + len)).toList

/-- The fault of a region that does not fit names the first address past the end of memory. -/
def outside (a : Nat) : Fault := .outOfBounds (max a size)

/-- Whether a region lies in memory. -/
def check (a len : Nat) : Except Fault Unit :=
  if a + len ≤ size then .ok () else .error (outside a)

def region (m : Memory) (a len : Nat) : Except Fault (List UInt8) :=
  (check a len).map fun _ => m.clamped a len

def word (m : Memory) (a : Nat) : Except Fault Word :=
  if h : a + 1 < 4096 then .ok (.ofBytes m.bytes[a] m.bytes[a + 1]) else .error (outside a)

/-! ## Writing -/

def write (m : Memory) (a : Nat) (b : UInt8) : Except Fault Memory :=
  if h : a < 4096 then .ok ⟨m.bytes.set a b⟩ else .error (.outOfBounds a)

/-- The bytes from `a` on replaced; what would lie past the end is dropped. -/
def overwrite (m : Memory) (a : Nat) : List UInt8 → Memory
  | [] => m
  | b :: bs => overwrite ⟨m.bytes.setIfInBounds a b⟩ (a + 1) bs

/-- Replaces a region, all of it or nothing. -/
def store (m : Memory) (a : Nat) (bs : List UInt8) : Except Fault Memory :=
  (check a bs.length).map fun _ => m.overwrite a bs

/-- Copies a program in. Bytes above it stay as they are. -/
def load (m : Memory) (rom : List UInt8) : Except Fault Memory :=
  if rom.length ≤ romLimit then .ok (m.overwrite romStart rom)
  else .error (.romTooLarge rom.length romLimit)

end Memory

end Chip8
