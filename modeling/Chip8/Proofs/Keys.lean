import Chip8.Proofs.Effects
import Chip8.Proofs.Frames
import Chip8.Terminal.Session

/-!
# Keys

What the user has typed decides which key a program finds held and whether the session is to end.
Steps and updates change neither, however they are mixed with key events.
-/

namespace Chip8

/-! ## Steps keep what a step keeps -/

section

variable {σ β : Type} {step : σ → σ × Outcome} {P : σ → Prop}

end

namespace Terminal

/-! ## What a key event means -/

namespace KeyEvent

/-- Escape or control-c goes down. -/
def Leaves (e : KeyEvent) : Prop :=
  e.action ≠ .released ∧ (e.code = .escape ∨ e.code = .char 'c' ∧ e.control = true)

/-- The character that stands for `key` goes down, but not as control-c. -/
def Presses (e : KeyEvent) (key : Nibble) : Prop :=
  e.action ≠ .released ∧ e.code = .char (keyLayout.get key) ∧
    ¬ (e.code = .char 'c' ∧ e.control = true)

instance decidableLeaves (e : KeyEvent) : Decidable e.Leaves :=
  inferInstanceAs (Decidable (_ ∧ (_ ∨ _ ∧ _)))

instance decidablePresses (e : KeyEvent) (key : Nibble) : Decidable (e.Presses key) :=
  inferInstanceAs (Decidable (_ ∧ _ ∧ ¬ (_ ∧ _)))

end KeyEvent

/-! ## What happens in a session -/

inductive Event where
  | key (event : KeyEvent)
  | update (fuel : Nat) (dt : Number.Single)
  | steps (n : Nat)
  /-- The key pressed last has been held for long enough. -/
  | expiry
  | clock (now : Nat)

namespace Event

def Leaves : Event → Prop
  | key e => e.Leaves
  | _ => False

def Presses (k : Nibble) : Event → Prop
  | key e => e.Presses k
  | _ => False

/-- From here on it does not matter which key was held. -/
def Resets : Event → Prop
  | key e => ∃ k, e.Presses k
  | expiry => True
  | _ => False

instance decidableLeaves (e : Event) : Decidable e.Leaves :=
  match e with
  | key e => inferInstanceAs (Decidable e.Leaves)
  | update .. | steps _ | expiry | clock _ => .isFalse id

instance decidablePresses (e : Event) (k : Nibble) : Decidable (e.Presses k) :=
  match e with
  | key e => inferInstanceAs (Decidable (e.Presses k))
  | update .. | steps _ | expiry | clock _ => .isFalse id

instance decidableResets (e : Event) : Decidable e.Resets :=
  match e with
  | key e => inferInstanceAs (Decidable (∃ k, e.Presses k))
  | expiry => .isTrue trivial
  | update .. | steps _ | clock _ => .isFalse id

end Event

namespace Session

end Session

end Terminal

end Chip8
