import Chip8.Proofs.Drawings
import Chip8.Proofs.Effects
import Chip8.Proofs.Ink

/-!
# The instruction that draws

DXYN takes its sprite from memory and its corner from two registers, and reports through the flag
register, which may be one of the two. The corner is read first. A second DXYN takes the first back
unless the flag has moved the corner.
-/

namespace Chip8

/-- The bytes from address `a` up to, and without, address `b` or the end of memory. -/
def Memory.between (memory : Memory) (a b : Nat) : List UInt8 :=
  List.ofFn fun i : Fin (min b 4096 - a) =>
    have hi := i.isLt
    memory.bytes[a + i.val]

theorem Memory.clamped_eq_between (memory : Memory) (a len : Nat) :
    memory.clamped a len = memory.between a (a + len) := by
  unfold clamped between
  apply List.ext_getElem
  · simp
    omega
  · intro i _ _
    simp

namespace Machine

variable {κ : Type}

/-- The `n` bytes at I, or as many of them as lie in memory. -/
def sprite (m : Machine κ) (n : Nibble) : List UInt8 :=
  m.memory.between m.index.val (m.index.val + n.val)

/-- What DXYN makes of a machine. -/
structure Draws (m m' : Machine κ) (w : Word) : Prop where
  pixels : ∀ (px : Fin 64) (py : Fin 32), m'.screen.pixel px py ≠ m.screen.pixel px py ↔
    Screen.Hits (m.registers.get w.x) (m.registers.get w.y) (m.sprite w.n) px py
  flag : m'.registers.flag = if 0 < m.screen.lost m'.screen then 1 else 0
  registers : ∀ r ≠ 15, m'.registers.get r = m.registers.get r
  rest : m' = { m with pc := m.pc + 2, screen := m'.screen, registers := m'.registers }

theorem draws_drawSprite (m : Machine κ) (w : Word) : m.Draws (m.drawSprite w.x w.y w.n) w := by
  unfold drawSprite
  rw [Memory.clamped_eq_between, ← sprite]
  constructor
  case pixels =>
    intro px py
    rw [Screen.hits_iff_stamps]
    simp only [advance, Screen.pixel_draw]
    cases m.screen.pixel px py <;> simp
  case flag =>
    simp only [advance, ← Screen.erased_draw_iff_lost]
    exact (Registers.get_set _ _ _ _).trans (if_pos rfl)
  case registers =>
    intro r hr
    exact m.registers.get_set_of_ne _ _ _ hr
  case rest => rfl

namespace Draws

variable {m m₁ m₂ : Machine κ} {w : Word}

theorem sprite_eq (h : m.Draws m₁ w) (n : Nibble) : m₁.sprite n = m.sprite n := by
  have hmemory : m₁.memory = m.memory := congrArg (·.memory) h.rest
  have hindex : m₁.index = m.index := congrArg (·.index) h.rest
  rw [sprite, sprite, hmemory, hindex]

theorem pixels_again (h₁ : m.Draws m₁ w) (h₂ : m₁.Draws m₂ w) (hx : w.x ≠ 15) (hy : w.y ≠ 15)
    (px : Fin 64) (py : Fin 32) : m₂.screen.pixel px py ≠ m₁.screen.pixel px py ↔
      Screen.Hits (m.registers.get w.x) (m.registers.get w.y) (m.sprite w.n) px py := by
  -- The first drawing leaves the corner and the bytes as they are.
  rw [h₂.pixels, h₁.registers w.x hx, h₁.registers w.y hy, h₁.sprite_eq]

theorem screen_twice (h₁ : m.Draws m₁ w) (h₂ : m₁.Draws m₂ w) (hx : w.x ≠ 15) (hy : w.y ≠ 15) :
    m₂.screen = m.screen := by
  apply Screen.ext_pixel
  intro px py
  have hfirst := h₁.pixels px py
  have hsecond := h₁.pixels_again h₂ hx hy px py
  rw [← hfirst] at hsecond
  revert hsecond
  cases m.screen.pixel px py <;> cases m₁.screen.pixel px py <;> cases m₂.screen.pixel px py <;>
    simp

theorem flag_twice (h₁ : m.Draws m₁ w) (h₂ : m₁.Draws m₂ w) (hx : w.x ≠ 15) (hy : w.y ≠ 15) :
    m₂.registers.flag = 1 ↔ ∃ (px : Fin 64) (py : Fin 32),
      Screen.Hits (m.registers.get w.x) (m.registers.get w.y) (m.sprite w.n) px py ∧
        m.screen.pixel px py = false := by
  -- What goes off again was switched on by the first drawing.
  have hlost : m₂.registers.flag = 1 ↔ 0 < m₁.screen.lost m₂.screen := by
    rw [h₂.flag]
    split_ifs with h <;> simp [h]
  rw [hlost, Screen.lost_pos_iff, h₁.screen_twice h₂ hx hy]
  refine exists₂_congr fun px py => ?_
  rw [← h₁.pixels]
  cases m.screen.pixel px py <;> simp

end Draws

variable [Keypad κ]

theorem execute_draw (m : Machine κ) (w : Word) (hw : w.family = 0xD) :
    m.execute w = (m.drawSprite w.x w.y w.n, .wait) :=
  m.execute_of_covers w .draw hw

/-- **The instruction that draws.** DXYN flips the pixels that the bytes at I hit, seen from the old
VX and VY, and reports whether it has switched one off; nothing else changes but the program
counter. Made twice, it restores the screen unless it takes its corner from the flag register. -/
theorem sprite_word_draws (m : Machine κ) (w : Word) (hw : w.family = 0xD) :
    (m.execute w).2 = .wait ∧ m.Draws (m.execute w).1 w ∧
    (w.x ≠ 15 → w.y ≠ 15 →
      ((m.execute w).1.execute w).1.screen = m.screen ∧
      (((m.execute w).1.execute w).1.registers.flag = 1 ↔ ∃ (px : Fin 64) (py : Fin 32),
        Screen.Hits (m.registers.get w.x) (m.registers.get w.y) (m.sprite w.n) px py ∧
          m.screen.pixel px py = false)) := by
  have hdraws : ∀ m' : Machine κ, m'.Draws (m'.execute w).1 w := by
    intro m'
    rw [m'.execute_draw w hw]
    exact m'.draws_drawSprite w
  refine ⟨by rw [m.execute_draw w hw], hdraws m, ?_⟩
  intro hx hy
  exact ⟨(hdraws m).screen_twice (hdraws _) hx hy, (hdraws m).flag_twice (hdraws _) hx hy⟩

/-- One pixel in the corner, switched on and off again. -/
theorem sprite_word_draws_dot :
    ((bare [0x80]).execute 0xD011).2 = .wait ∧
    (((bare [0x80]).execute 0xD011).1.execute 0xD011).1.screen = .blank ∧
    (((bare [0x80]).execute 0xD011).1.execute 0xD011).1.registers.flag = 1 := by
  obtain ⟨hwait, -, htwice⟩ := sprite_word_draws (bare [0x80]) 0xD011 (by decide)
  obtain ⟨hscreen, hflag⟩ := htwice (by decide) (by decide)
  have hsprite : (bare [0x80]).sprite 1 = [0x80] := by
    simp [sprite, Memory.between, bare, Memory.overwrite]
  refine ⟨hwait, hscreen, hflag.mpr ⟨0, 0, ?_, by decide⟩⟩
  show Screen.Hits 0 0 ((bare [0x80]).sprite 1) 0 0
  rw [hsprite]
  exact ⟨0, 0, by decide, by decide, by decide, by decide, by decide⟩

end Machine

end Chip8
