import Chip8.Hex
import Chip8.Machine.State
import Chip8.Terminal.Picture

/-!
# The view of a machine

The display on the left; the registers and, below them, the call stack on the right. A terminal
that is too small for all of it gets a notice instead.
-/

namespace Chip8.Terminal.View

variable {κ : Type}

def sideWidth : Nat := 17

def registersHeight : Nat := 13

/-- The display with its outline, and the side panels. -/
def minWidth : Nat := 64 + 2 + sideWidth

def minHeight : Nat := 32 + 2

/-! ## Display -/

def displayLines (s : Screen) : List (List Char) :=
  (List.range 32).map fun y => (List.range 64).map fun x => if s.pixel x y then '█' else ' '

def displayPanel (s : Screen) (width height : Nat) : Panel where
  area := ⟨0, 0, width - sideWidth, height⟩
  title := " Display ".toList
  lines := displayLines s
  ink := .green

/-! ## Registers -/

def registerPair (v : Registers) (x : Nibble) : String :=
  "V" ++ hex 1 x.val ++ ": " ++ hex 2 (v.get x).toNat

def registerLines (m : Machine κ) : List String :=
  ("PC: " ++ hex 3 m.pc.toNat ++ "  I: " ++ hex 3 m.index.val) ::
  ("DT: " ++ hex 2 m.delayNow.toNat ++ "   ST: " ++ hex 2 m.soundNow.toNat) ::
  "" ::
  (List.range 8).map fun x =>
    registerPair m.registers (Fin.ofNat 16 x) ++ "   " ++
      registerPair m.registers (Fin.ofNat 16 (x + 8))

def registersPanel (m : Machine κ) (width : Nat) : Panel where
  area := ⟨width - sideWidth, 0, sideWidth, registersHeight⟩
  title := " Registers ".toList
  lines := (registerLines m).map String.toList
  centred := false

/-! ## Stack -/

def stackLine (address : UInt16) (i : Nat) : String :=
  String.ofList ((Nat.toDigits 10 i).leftpad 2 '0') ++ ": " ++ hex 3 address.toNat

/-- The lines that fit in a panel of a given height: all calls, or the newest of them below a
mark. -/
def stackLines (stack : List UInt16) (height : Nat) : List String :=
  let most := max (height - 2) 1
  let lines := if stack = [] then ["Empty"] else stack.zipIdx.map fun (a, i) => stackLine a i
  if most < lines.length then "..." :: lines.drop (lines.length - (most - 1)) else lines

def stackPanel (stack : List UInt16) (width height : Nat) : Panel where
  area := ⟨width - sideWidth, registersHeight, sideWidth, height - registersHeight⟩
  title := " Stack ".toList
  lines := (stackLines stack (height - registersHeight)).map String.toList

/-! ## All of it -/

/-- The middle of the terminal, as far as it is there. -/
def noticePanel (width height : Nat) : Panel where
  area :=
    let w := min 45 width
    let h := min 3 height
    ⟨(width - w + 1) / 2, (height - h + 1) / 2, w, h⟩
  lines := [("Terminal is too small (" ++ toString minWidth ++ "x" ++ toString minHeight
    ++ " min)").toList]
  ink := .red
  ground := .red

def picture (m : Machine κ) (width height : Nat) : Picture :=
  if width < minWidth ∨ height < minHeight then [noticePanel width height]
  else [
    displayPanel m.screen width height,
    registersPanel m width,
    stackPanel m.stack.toList width height]

end Chip8.Terminal.View
