import Mathlib.Algebra.BigOperators.Fin
import Chip8.Proofs.Sprites

/-!
# Ink

How many pixels are on. Every set bit of a sprite falls on a pixel of its own, so a sprite flips as
many pixels as it has set bits, and what it does not switch on it switches off.
-/

namespace Chip8

open Finset

/-- The number of set bits. -/
def bits (b : UInt8) : Nat := ((range 8).filter fun i => b.toNat.testBit i = true).card

/-- The set bits of the rows that are drawn. -/
def ink (sprite : List UInt8) : Nat := ((sprite.take 15).map bits).sum

namespace Screen

/-- The pixels that are on. -/
def on (s : Screen) : Finset (Fin 64 × Fin 32) := univ.filter fun p => s.pixel p.1 p.2 = true

/-- How many pixels were on before and are off after. -/
def lost (before after : Screen) : Nat := (before.on \ after.on).card

/-- The pixels that a sprite at `x` and `y` has a set bit for. -/
def stamped (x y : Nat) (sprite : List UInt8) : Finset (Fin 64 × Fin 32) :=
  univ.filter fun p => stamps x y sprite p.1 p.2 = true

theorem lost_pos_iff (s t : Screen) : 0 < s.lost t ↔ ∃ (px : Fin 64) (py : Fin 32),
    s.pixel px py = true ∧ t.pixel px py = false := by
  rw [lost, card_pos]
  simp [Finset.Nonempty, on]

/-! ## Counting the screen -/

theorem countP_range_eq_card (n : Nat) (p : Nat → Bool) :
    (List.range n).countP p = (univ.filter fun i : Fin n => p i = true).card := by
  rw [card_filter, Fin.sum_univ_eq_sum_range fun i => if p i = true then 1 else 0]
  induction n with
  | zero => rfl
  | succ n ih => rw [List.range_succ, List.countP_append, ih, sum_range_succ, List.countP_singleton]

theorem lit_eq_sum (s : Screen) :
    s.lit = ∑ py : Fin 32, (List.range 64).countP s.rows[py].getMsbD := by
  have hrows : s.rows.toList = List.ofFn fun py : Fin 32 => s.rows[py] := by
    conv_lhs => rw [← @Vector.ofFn_getElem _ _ s.rows]
    exact Vector.toList_ofFn
  rw [lit, hrows, ← List.sum_ofFn, List.sum_eq_foldl, ← List.foldl_map (g := (· + ·)),
    List.map_ofFn]
  rfl

theorem lit_eq_card (s : Screen) : s.lit = s.on.card := by
  rw [lit_eq_sum, on, card_filter, Fintype.sum_prod_type_right]
  apply sum_congr rfl
  intro py _
  rw [countP_range_eq_card, card_filter]
  apply sum_congr rfl
  intro px _
  rw [s.pixel_eq_getMsbD px py px.isLt py.isLt]
  rfl

/-! ## Counting a sprite -/

theorem getMsbD_stripe_iff (x : Nat) (b : UInt8) (px : Fin 64) :
    (stripe x b).getMsbD px = true ↔
      column x px < 8 ∧ b.toNat.testBit (7 - column x px) = true := by
  rw [getMsbD_stripe x b px px.isLt, getMsbD_toBitVec_iff]

theorem column_add_mod (x c : Nat) (hc : c < 64) : column x ((x + c) % 64) = c :=
  ((add_mod_eq_iff x c _ hc (Nat.mod_lt _ (by decide))).mp rfl).symm

theorem add_column_mod (x : Nat) (px : Fin 64) : (x + column x px) % 64 = px :=
  (add_mod_eq_iff x _ px (Nat.mod_lt _ (by decide)) px.isLt).mpr rfl

theorem card_stripe (x : Nat) (b : UInt8) :
    (univ.filter fun px : Fin 64 => (stripe x b).getMsbD px = true).card = bits b := by
  -- Bit i of the byte is column 7 - i of the sprite.
  apply card_nbij' (fun px : Fin 64 => 7 - column x px) (fun i => Fin.ofNat 64 (x + (7 - i)))
  · intro px hpx
    simp only [coe_filter, mem_univ, true_and, Set.mem_ofPred_eq, getMsbD_stripe_iff,
      mem_range] at hpx ⊢
    exact ⟨by omega, hpx.2⟩
  · intro i hi
    simp only [coe_filter, mem_univ, true_and, Set.mem_ofPred_eq, getMsbD_stripe_iff, mem_range,
      Fin.ofNat] at hi ⊢
    rw [column_add_mod x (7 - i) (by omega), show 7 - (7 - i) = i by omega]
    exact ⟨by omega, hi.2⟩
  · intro px hpx
    simp only [coe_filter, mem_univ, true_and, Set.mem_ofPred_eq, getMsbD_stripe_iff] at hpx
    apply Fin.ext
    show (x + (7 - (7 - column x px))) % 64 = px
    rw [show 7 - (7 - column x px) = column x px by omega]
    exact add_column_mod x px
  · intro i hi
    simp only [coe_filter, mem_range, Set.mem_ofPred_eq] at hi
    show 7 - column x ((x + (7 - i)) % 64) = i
    rw [column_add_mod x (7 - i) (by omega)]
    omega

def firstLine (x y : Nat) (b : UInt8) : Finset (Fin 64 × Fin 32) :=
  univ.filter fun p => (stripe x b).getMsbD p.1 = true ∧ p.2.val = y % 32

theorem card_firstLine (x y : Nat) (b : UInt8) : (firstLine x y b).card = bits b := by
  have hy : y % 32 < 32 := Nat.mod_lt y (by decide)
  have hproduct : firstLine x y b =
      (univ.filter fun px : Fin 64 => (stripe x b).getMsbD px = true) ×ˢ {⟨y % 32, hy⟩} := by
    ext p
    simp only [firstLine, mem_filter, mem_univ, true_and, mem_product, mem_singleton, Fin.ext_iff]
  rw [hproduct, card_product, card_stripe, card_singleton, Nat.mul_one]

theorem stamped_cons (x y : Nat) (b : UInt8) (sprite : List UInt8) (h : sprite.length < 32) :
    stamped x y (b :: sprite) = firstLine x y b ∪ stamped x (y + 1) sprite := by
  ext ⟨px, py⟩
  simp only [firstLine, stamped, mem_union, mem_filter, mem_univ, true_and,
    stamps_cons x y b sprite px py px.isLt py.isLt h]
  by_cases hy : py.val = y % 32
  · simp [hy, stamps_next x y sprite px h]
  · simp [hy, Ne.symm hy]

theorem disjoint_firstLine (x y : Nat) (b : UInt8) (sprite : List UInt8) (h : sprite.length < 32) :
    Disjoint (firstLine x y b) (stamped x (y + 1) sprite) := by
  unfold firstLine stamped
  rw [disjoint_filter]
  rintro p - ⟨-, hy⟩
  simp [hy, stamps_next x y sprite p.1 h]

theorem card_stamped (x y : Nat) (sprite : List UInt8) (h : sprite.length ≤ 32) :
    (stamped x y sprite).card = (sprite.map bits).sum := by
  induction sprite generalizing y with
  | nil => simp [stamped, stamps]
  | cons b sprite ih =>
    rw [List.length_cons] at h
    rw [stamped_cons x y b sprite (by omega),
      card_union_of_disjoint (disjoint_firstLine x y b sprite (by omega)), card_firstLine,
      ih (y + 1) (by omega), List.map_cons, List.sum_cons]

/-! ## Counting a drawing -/

section

variable (s : Screen) (x y : UInt8) (sprite : List UInt8)

theorem on_sdiff_draw :
    s.on \ (s.draw x y sprite).1.on = s.on ∩ stamped x.toNat y.toNat (sprite.take 15) := by
  ext p
  simp only [on, stamped, mem_sdiff, mem_inter, mem_filter, mem_univ, true_and, pixel_draw]
  cases s.pixel p.1 p.2 <;> simp

theorem draw_sdiff_on :
    (s.draw x y sprite).1.on \ s.on = stamped x.toNat y.toNat (sprite.take 15) \ s.on := by
  ext p
  simp only [on, stamped, mem_sdiff, mem_filter, mem_univ, true_and, pixel_draw]
  cases s.pixel p.1 p.2 <;> simp

theorem gained_add_lost :
    ((s.draw x y sprite).1.on \ s.on).card + s.lost (s.draw x y sprite).1 = ink sprite := by
  -- What the sprite does not switch on it switches off.
  rw [lost, on_sdiff_draw, draw_sdiff_on, inter_comm, card_sdiff_add_card_inter,
    card_stamped _ _ _ (length_take_fifteen sprite), ink]

theorem lit_draw :
    (s.draw x y sprite).1.lit + 2 * s.lost (s.draw x y sprite).1 = s.lit + ink sprite := by
  have hgained := s.gained_add_lost x y sprite
  -- Both sides are counted through the pixels that are on before or after.
  have hbefore := card_sdiff_add_card s.on (s.draw x y sprite).1.on
  have hafter := card_sdiff_add_card (s.draw x y sprite).1.on s.on
  rw [union_comm] at hafter
  rw [lit_eq_card, lit_eq_card]
  unfold lost at hgained ⊢
  omega

theorem erased_draw_iff_lost :
    (s.draw x y sprite).2 = true ↔ 0 < s.lost (s.draw x y sprite).1 := by
  rw [erased_draw_iff, lost_pos_iff]
  refine exists₂_congr fun px py => and_congr_right fun hon => ?_
  simp [pixel_draw, hon]

end

/-- **Ink.** A sprite adds its set bits to the pixels that are on, less twice those that it has
switched off, and it tells whether there are any of these. -/
theorem lit_counts_ink (s : Screen) (x y : UInt8) (sprite : List UInt8) :
    (s.draw x y sprite).1.lit + 2 * s.lost (s.draw x y sprite).1 = s.lit + ink sprite ∧
    s.lost (s.draw x y sprite).1 ≤ ink sprite ∧
    ((s.draw x y sprite).2 = true ↔ 0 < s.lost (s.draw x y sprite).1) ∧
    ((s.draw x y sprite).2 = false ↔ (s.draw x y sprite).1.lit = s.lit + ink sprite) := by
  have hlit := s.lit_draw x y sprite
  have hgained := s.gained_add_lost x y sprite
  have herased := s.erased_draw_iff_lost x y sprite
  refine ⟨hlit, by omega, herased, ?_⟩
  rw [← Bool.not_eq_true, herased]
  omega

end Screen

end Chip8
