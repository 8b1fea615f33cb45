import Mathlib.Data.List.Perm.Basic
import Chip8.Proofs.Sprites

/-!
# Drawings one after another

A drawing only flips pixels, so two drawings give the same screen in either order, and a drawing
made again takes itself back. Both carry over to any number of drawings.
-/

namespace Chip8

/-- A sprite and the corner it is drawn at. -/
structure Drawing where
  x : UInt8
  y : UInt8
  sprite : List UInt8

/-- The corner named one screen further to the right, or one screen further down. -/
inductive Drawing.Shifted (d : Drawing) : Drawing → Prop
  | right (x : UInt8) (hx : x.toNat = d.x.toNat + 64) : Shifted d { d with x }
  | down (y : UInt8) (hy : y.toNat = d.y.toNat + 32) : Shifted d { d with y }

namespace Screen

theorem ext_pixel {s t : Screen}
    (h : ∀ (px : Fin 64) (py : Fin 32), s.pixel px py = t.pixel px py) : s = t := by
  apply Screen.ext
  apply Vector.ext
  intro py hpy
  apply BitVec.eq_of_getMsbD_eq
  intro px hpx
  have hpixel := h ⟨px, hpx⟩ ⟨py, hpy⟩
  rwa [pixel_eq_getMsbD s px py hpx hpy, pixel_eq_getMsbD t px py hpx hpy] at hpixel

def after (s : Screen) (d : Drawing) : Screen := (s.draw d.x d.y d.sprite).1

/-- Makes drawings one after another. The flags are those of the single drawings, in order. -/
def play (s : Screen) : List Drawing → Screen × List Bool
  | [] => (s, [])
  | d :: ds => (((s.after d).play ds).1, (s.draw d.x d.y d.sprite).2 :: ((s.after d).play ds).2)

theorem play_fst (s : Screen) (ds : List Drawing) : (s.play ds).1 = ds.foldl after s := by
  induction ds generalizing s with
  | nil => rfl
  | cons d ds ih => simp [play, ih]

/-! ## Order -/

theorem after_right_comm (s : Screen) (d e : Drawing) :
    (s.after d).after e = (s.after e).after d := by
  apply ext_pixel
  intro px py
  unfold after
  simp only [pixel_draw]
  exact Bool.xor_right_comm _ _ _

theorem after_after (s : Screen) (d : Drawing) : (s.after d).after d = s := by
  apply ext_pixel
  intro px py
  unfold after
  simp [pixel_draw]

theorem play_perm (s : Screen) {ds ds' : List Drawing} (h : ds'.Perm ds) :
    (s.play ds').1 = (s.play ds).1 := by
  rw [play_fst, play_fst]
  apply h.foldl_eq'
  intro d _ e _ t
  exact t.after_right_comm d e

theorem foldl_after_reverse (s : Screen) (ds : List Drawing) :
    ds.reverse.foldl after (ds.foldl after s) = s := by
  induction ds generalizing s with
  | nil => rfl
  | cons d ds ih => simp [ih, after_after]

theorem play_again (s : Screen) {ds ds' : List Drawing} (h : ds'.Perm ds) :
    ((s.play ds).1.play ds').1 = s := by
  -- The newest drawing is taken back first, and any other order comes to the same.
  rw [play_perm _ (h.trans ds.reverse_perm.symm), play_fst, play_fst]
  exact s.foldl_after_reverse ds

/-! ## Place -/

theorem stamps_congr {x x' y y' : Nat} (hx : x' % 64 = x % 64) (hy : y' % 32 = y % 32)
    (sprite : List UInt8) (px py : Nat) : stamps x' y' sprite px py = stamps x y sprite px py := by
  simp [stamps, line, column, hx, hy]

theorem draw_congr (s : Screen) {x x' y y' : UInt8} (hx : x'.toNat % 64 = x.toNat % 64)
    (hy : y'.toNat % 32 = y.toNat % 32) (sprite : List UInt8) :
    s.draw x' y' sprite = s.draw x y sprite := by
  apply Prod.ext
  · apply ext_pixel
    intro px py
    rw [pixel_draw, pixel_draw, stamps_congr hx hy]
  · rw [Bool.eq_iff_iff, erased_draw_iff, erased_draw_iff]
    simp only [stamps_congr hx hy]

theorem draw_shifted (s : Screen) {d d' : Drawing} (h : d.Shifted d') :
    s.draw d'.x d'.y d'.sprite = s.draw d.x d.y d.sprite := by
  cases h with
  | right x hx => exact s.draw_congr (by simp [hx]) rfl d.sprite
  | down y hy => exact s.draw_congr rfl (by simp [hy]) d.sprite

theorem play_shifted (s : Screen) {d d' : Drawing} (h : d.Shifted d')
    (before later : List Drawing) :
    s.play (before ++ d' :: later) = s.play (before ++ d :: later) := by
  induction before generalizing s with
  | nil => simp [play, after, s.draw_shifted h]
  | cons e before ih => simp [play, ih]

/-- **Drawings one after another.** Their order does not matter to the screen, making all of them
again in any order takes them back, and shifting one of them by a whole screen changes neither the
screen nor a flag. -/
theorem drawings_only_flip (s : Screen) (ds : List Drawing) :
    (∀ ds', ds'.Perm ds → (s.play ds').1 = (s.play ds).1 ∧ ((s.play ds).1.play ds').1 = s) ∧
    (∀ before d later d', ds = before ++ d :: later → d.Shifted d' →
      s.play (before ++ d' :: later) = s.play ds) := by
  constructor
  · intro ds' h
    exact ⟨s.play_perm h, s.play_again h⟩
  · rintro before d later d' rfl h
    exact s.play_shifted h before later

/-- Two drawings that meet in the corner of the screen. -/
theorem drawings_only_flip_corner :
    let d : Drawing := ⟨60, 30, [0xFF, 0x81]⟩
    let e : Drawing := ⟨60, 31, [0xF0]⟩
    (blank.play [e, d]).1 = (blank.play [d, e]).1 ∧
    ((blank.play [d, e]).1.play [e, d]).1 = blank ∧
    blank.play [{ d with x := 124 }, e] = blank.play [d, e] ∧
    blank.play [d, { e with y := 63 }] = blank.play [d, e] := by
  intro d e
  obtain ⟨horder, hplace⟩ := drawings_only_flip blank [d, e]
  obtain ⟨hsame, hback⟩ := horder [e, d] (.swap d e [])
  have hright : d.Shifted { d with x := 124 } := .right 124 (by decide)
  have hdown : e.Shifted { e with y := 63 } := .down 63 (by decide)
  exact ⟨hsame, hback, hplace [] d [e] _ rfl hright, hplace [d] e [] _ rfl hdown⟩

end Screen

end Chip8
