import Chip8.Proofs.Pixels

/-!
# Sprites

Which pixels a sprite flips. A sprite of at most fifteen rows is lower than the screen, so no row of
the screen is drawn on twice, and whether a pixel goes off can be told from the screen before the
sprite.
-/

namespace Chip8.Screen

/-- The row of a sprite at `y` that falls on row `j` of the screen. -/
def line (y j : Nat) : Nat := (j + 32 - y % 32) % 32

/-- Whether a sprite at `x` and `y` has a set bit for a pixel. -/
def stamps (x y : Nat) (sprite : List UInt8) (px py : Nat) : Bool :=
  sprite[line y py]?.any (·.toBitVec.getMsbD (column x px))

/-! ## One row -/

theorem pixel_eq_getMsbD (s : Screen) (px py : Nat) (hpx : px < 64) (hpy : py < 32) :
    s.pixel px py = s.rows[py].getMsbD px := by
  simp [pixel, Nat.mod_eq_of_lt hpx, Nat.mod_eq_of_lt hpy]

theorem pixel_flipRow (s : Screen) (y : Nat) (flips : BitVec 64) (px py : Nat) (hpx : px < 64)
    (hpy : py < 32) :
    (s.flipRow y flips).1.pixel px py =
      (s.pixel px py ^^ (decide (y % 32 = py) && flips.getMsbD px)) := by
  rw [pixel_eq_getMsbD _ px py hpx hpy, pixel_eq_getMsbD _ px py hpx hpy]
  by_cases h : y % 32 = py
  · subst h
    simp [flipRow]
  · simp [flipRow, h]

theorem erased_flipRow_iff (s : Screen) (y : Nat) (flips : BitVec 64) :
    (s.flipRow y flips).2 = true ↔
      ∃ px < 64, s.pixel px (y % 32) = true ∧ flips.getMsbD px = true := by
  have hy : y % 32 < 32 := Nat.mod_lt y (by decide)
  rw [flipRow, bne_iff_ne, Ne, eq_zero_iff_getMsbD]
  simp only [BitVec.getMsbD_and, not_forall, exists_prop, Bool.not_eq_false, Bool.and_eq_true]
  refine exists_congr fun px => and_congr_right fun hpx => ?_
  rw [s.pixel_eq_getMsbD px _ hpx hy]

/-! ## All rows -/

theorem stamps_next (x y : Nat) (sprite : List UInt8) (px : Nat) (h : sprite.length < 32) :
    stamps x (y + 1) sprite px (y % 32) = false := by
  -- The row just above a sprite is also the 32nd row of it, and the sprite does not reach so far.
  have hline : line (y + 1) (y % 32) = 31 := by
    unfold line
    omega
  rw [stamps, hline, List.getElem?_eq_none (by omega)]
  rfl

theorem stamps_cons (x y : Nat) (b : UInt8) (sprite : List UInt8) (px py : Nat) (hpx : px < 64)
    (hpy : py < 32) (h : sprite.length < 32) :
    stamps x y (b :: sprite) px py =
      ((decide (y % 32 = py) && (stripe x b).getMsbD px) ^^ stamps x (y + 1) sprite px py) := by
  rw [getMsbD_stripe x b px hpx]
  by_cases hy : y % 32 = py
  · subst hy
    have hline : line y (y % 32) = 0 := by
      unfold line
      omega
    rw [stamps_next x y sprite px h, stamps, hline]
    simp
  · have hline : line y py = line (y + 1) py + 1 := by
      unfold line
      omega
    simp [stamps, hline, hy]

theorem pixel_drawRows (s : Screen) (x y : Nat) (sprite : List UInt8) (px py : Nat) (hpx : px < 64)
    (hpy : py < 32) (h : sprite.length ≤ 32) :
    (s.drawRows x y sprite).1.pixel px py = (s.pixel px py ^^ stamps x y sprite px py) := by
  induction sprite generalizing s y with
  | nil => simp [drawRows, stamps]
  | cons b sprite ih =>
    rw [List.length_cons] at h
    rw [drawRows, ih _ _ (by omega), pixel_flipRow s y _ px py hpx hpy,
      stamps_cons x y b sprite px py hpx hpy (by omega), Bool.xor_assoc]

theorem erased_drawRows_iff (s : Screen) (x y : Nat) (sprite : List UInt8)
    (h : sprite.length ≤ 32) :
    (s.drawRows x y sprite).2 = true ↔
      ∃ px < 64, ∃ py < 32, s.pixel px py = true ∧ stamps x y sprite px py = true := by
  induction sprite generalizing s y with
  | nil => simp [drawRows, stamps]
  | cons b sprite ih =>
    rw [List.length_cons] at h
    have hstamps := fun px py hpx hpy => stamps_cons x y b sprite px py hpx hpy (by omega)
    rw [drawRows, Bool.or_eq_true, erased_flipRow_iff, ih _ _ (by omega)]
    constructor
    · rintro (⟨px, hpx, hon, hflip⟩ | ⟨px, hpx, py, hpy, hon, hstamp⟩)
      · have hy : y % 32 < 32 := Nat.mod_lt y (by decide)
        refine ⟨px, hpx, y % 32, hy, hon, ?_⟩
        simp [hstamps px _ hpx hy, hflip, stamps_next x y sprite px (by omega)]
      · -- The first row is not drawn on again.
        have hne : y % 32 ≠ py := by
          rintro rfl
          simp [stamps_next x y sprite px (by omega)] at hstamp
        rw [pixel_flipRow s y _ px py hpx hpy] at hon
        refine ⟨px, hpx, py, hpy, by simpa [hne] using hon, ?_⟩
        simp [hstamps px py hpx hpy, hne, hstamp]
    · rintro ⟨px, hpx, py, hpy, hon, hstamp⟩
      rw [hstamps px py hpx hpy] at hstamp
      by_cases hy : y % 32 = py
      · subst hy
        refine .inl ⟨px, hpx, hon, ?_⟩
        simpa [stamps_next x y sprite px (by omega)] using hstamp
      · refine .inr ⟨px, hpx, py, hpy, ?_, by simpa [hy] using hstamp⟩
        rw [pixel_flipRow s y _ px py hpx hpy]
        simpa [hy] using hon

/-! ## Sprites -/

theorem length_take_fifteen (sprite : List UInt8) : (sprite.take 15).length ≤ 32 := by
  rw [List.length_take]
  omega

theorem pixel_draw (s : Screen) (x y : UInt8) (sprite : List UInt8) (px : Fin 64) (py : Fin 32) :
    (s.draw x y sprite).1.pixel px py =
      (s.pixel px py ^^ stamps x.toNat y.toNat (sprite.take 15) px py) :=
  s.pixel_drawRows _ _ _ px py px.isLt py.isLt (length_take_fifteen sprite)

theorem erased_draw_iff (s : Screen) (x y : UInt8) (sprite : List UInt8) :
    (s.draw x y sprite).2 = true ↔ ∃ (px : Fin 64) (py : Fin 32),
      s.pixel px py = true ∧ stamps x.toNat y.toNat (sprite.take 15) px py = true := by
  rw [draw, s.erased_drawRows_iff _ _ _ (length_take_fifteen sprite)]
  constructor
  · rintro ⟨px, hpx, py, hpy, h⟩
    exact ⟨⟨px, hpx⟩, ⟨py, hpy⟩, h⟩
  · rintro ⟨px, py, h⟩
    exact ⟨px, px.isLt, py, py.isLt, h⟩

/-- Row `r` and column `c` of a sprite fall on the pixel, and the sprite has a set bit there. -/
def Hits (x y : UInt8) (sprite : List UInt8) (px py : Nat) : Prop :=
  ∃ r c : Nat, (r : Int) = (py - y.toNat : Int) % 32 ∧ (c : Int) = (px - x.toNat : Int) % 64 ∧
    r < min 15 sprite.length ∧ c < 8 ∧ (sprite.getD r 0).toNat.testBit (7 - c) = true

theorem getMsbD_toBitVec_iff (b : UInt8) (c : Nat) :
    b.toBitVec.getMsbD c = true ↔ c < 8 ∧ b.toNat.testBit (7 - c) = true := by
  simp [BitVec.getMsbD, BitVec.getLsbD]

theorem stamps_take_iff (x y : Nat) (sprite : List UInt8) (px py : Nat) :
    stamps x y (sprite.take 15) px py = true ↔ line y py < min 15 sprite.length ∧
      (sprite.getD (line y py) 0).toBitVec.getMsbD (column x px) = true := by
  unfold stamps
  by_cases hlt : line y py < min 15 sprite.length
  · have hlen : line y py < sprite.length := by omega
    rw [List.getElem?_take_of_lt (by omega), List.getD_eq_getElem?_getD,
      List.getElem?_eq_getElem hlen]
    simp [hlt]
  · rw [List.getElem?_eq_none (by rw [List.length_take]; omega)]
    simp [hlt]

theorem hits_iff_stamps (x y : UInt8) (sprite : List UInt8) (px py : Nat) :
    Hits x y sprite px py ↔ stamps x.toNat y.toNat (sprite.take 15) px py = true := by
  have hr : ((line y.toNat py : Nat) : Int) = (py - y.toNat : Int) % 32 := by
    unfold line
    omega
  have hc : ((column x.toNat px : Nat) : Int) = (px - x.toNat : Int) % 64 := by
    unfold column
    omega
  rw [stamps_take_iff, getMsbD_toBitVec_iff]
  constructor
  · rintro ⟨r, c, hr', hc', h⟩
    obtain rfl : r = line y.toNat py := by omega
    obtain rfl : c = column x.toNat px := by omega
    exact h
  · intro h
    exact ⟨_, _, hr, hc, h⟩

/-- **Sprites.** A sprite flips exactly the pixels that a set bit of its first fifteen rows falls on,
and it tells whether it has switched one off. -/
theorem draw_flips_hits (s : Screen) (x y : UInt8) (sprite : List UInt8) :
    (∀ (px : Fin 64) (py : Fin 32),
      (s.draw x y sprite).1.pixel px py ≠ s.pixel px py ↔ Hits x y sprite px py) ∧
    ((s.draw x y sprite).2 = true ↔ ∃ (px : Fin 64) (py : Fin 32),
      s.pixel px py = true ∧ (s.draw x y sprite).1.pixel px py = false) := by
  constructor
  · intro px py
    rw [pixel_draw, hits_iff_stamps]
    cases s.pixel px py <;> simp
  · rw [erased_draw_iff]
    refine exists₂_congr fun px py => and_congr_right fun hon => ?_
    rw [pixel_draw, hon]
    simp

end Chip8.Screen
