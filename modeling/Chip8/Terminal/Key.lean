import Chip8.Nibble

/-!
# Terminal keys

The left block of a keyboard stands for the sixteen keys of the keypad. Escape and control-c leave.
-/

namespace Chip8.Terminal

inductive KeyCode where
  | char (c : Char)
  | escape
  | enter
  | tab
  | backspace
  | up
  | function (n : Nat)
  | null
  /-- A key that means nothing here, by its name. -/
  | other (name : String)
  deriving DecidableEq, Repr

inductive KeyAction where
  | pressed
  | repeated
  | released
  deriving DecidableEq, Repr

structure KeyEvent where
  code : KeyCode
  control : Bool := false
  shift : Bool := false
  alt : Bool := false
  action : KeyAction := .pressed
  deriving DecidableEq, Repr

/-- The character that stands for each key, from 0 to F. -/
def keyLayout : Vector Char 16 :=
  #v['x', '1', '2', '3', 'q', 'w', 'e', 'a', 's', 'd', 'z', 'c', '4', 'r', 'f', 'v']

def KeyCode.toKey? : KeyCode → Option Nibble
  | char c => keyLayout.finIdxOf? c
  | _ => none

/-- What a key event asks for. -/
inductive Request where
  | nothing
  | quit
  | press (key : Nibble)
  deriving DecidableEq, Repr

/-- Modifiers only matter for control-c. -/
def KeyEvent.request (e : KeyEvent) : Request :=
  if e.action = .released then .nothing
  else if e.code = .escape ∨ (e.code = .char 'c' ∧ e.control) then .quit
  else match e.code.toKey? with
    | some key => .press key
    | none => .nothing

end Chip8.Terminal
