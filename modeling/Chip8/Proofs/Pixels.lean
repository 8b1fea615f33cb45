import Mathlib.Data.List.Nodup
import Mathlib.Tactic.SplitIfs
import Chip8.Screen

/-!
# Pixels

A sprite row is drawn in one go. The same comes out when its pixels are flipped one at a time, since
no two of them lie in the same column.
-/

namespace Chip8.Screen

/-! ## Stripes, pixel by pixel -/

/-- The column of a sprite at `x` that falls on column `i` of the screen. A sprite has eight. -/
def column (x i : Nat) : Nat := (i + 64 - x % 64) % 64

theorem add_mod_eq_iff (x c i : Nat) (hc : c < 64) (hi : i < 64) :
    (x + c) % 64 = i ↔ c = column x i := by
  unfold column
  omega

theorem getMsbD_stripe (x : Nat) (b : UInt8) (i : Nat) (hi : i < 64) :
    (stripe x b).getMsbD i = b.toBitVec.getMsbD (column x i) := by
  have hpixel : ∀ k, ((b.toBitVec.setWidth 64) <<< 56).getMsbD k = b.toBitVec.getMsbD k := by
    intro k
    rw [BitVec.getMsbD_shiftLeft, BitVec.getMsbD_setWidth]
    simp
  unfold stripe column
  rw [BitVec.getMsbD_rotateRight, hpixel, hpixel]
  split_ifs with hwrap
  · simp [hi, Nat.add_comm]
  · have hlt : (i + 64 - x % 64) % 64 = i - x % 64 := by omega
    simp [hi, hlt]

/-- The row in which column `i` alone is on. -/
def dot (i : Nat) : BitVec 64 := BitVec.twoPow 64 (63 - i)

theorem getMsbD_dot (i j : Nat) (hi : i < 64) : (dot i).getMsbD j = decide (j = i) := by
  rw [dot, BitVec.getMsbD_twoPow]
  have hj : 64 - (63 - i) - 1 = i := by omega
  simp [hj]
  omega

/-- The pixels that some columns of a sprite row stand for. -/
def dots (x : Nat) (b : UInt8) : List Nat → BitVec 64
  | [] => 0
  | c :: cs => (if b.toBitVec.getMsbD c then dot ((x + c) % 64) else 0) ^^^ dots x b cs

theorem getMsbD_dots (x : Nat) (b : UInt8) (cs : List Nat) (i : Nat) (hi : i < 64)
    (hnodup : cs.Nodup) (hcs : ∀ c ∈ cs, c < 64) :
    (dots x b cs).getMsbD i =
      (decide (column x i ∈ cs) && b.toBitVec.getMsbD (column x i)) := by
  induction cs with
  | nil => simp [dots]
  | cons c cs ih =>
    rw [List.nodup_cons] at hnodup
    rw [List.forall_mem_cons] at hcs
    have hhead : (if b.toBitVec.getMsbD c then dot ((x + c) % 64) else 0).getMsbD i =
        (decide (column x i = c) && b.toBitVec.getMsbD c) := by
      have hmod : (x + c) % 64 < 64 := Nat.mod_lt _ (by decide)
      split_ifs with hb
      · rw [getMsbD_dot _ _ hmod, hb, Bool.and_true, decide_eq_decide, eq_comm,
          add_mod_eq_iff x c i hcs.1 hi, eq_comm]
      · simp [hb]
    rw [dots, BitVec.getMsbD_xor, hhead, ih hnodup.2 hcs.2]
    by_cases hc : column x i = c
    · simp [hc, hnodup.1]
    · simp [hc]

theorem stripe_eq_dots (x : Nat) (b : UInt8) : stripe x b = dots x b (List.range 8) := by
  apply BitVec.eq_of_getMsbD_eq
  intro i hi
  have hcs : ∀ c ∈ List.range 8, c < 64 := by decide
  rw [getMsbD_stripe x b i hi, getMsbD_dots x b _ i hi List.nodup_range hcs]
  by_cases hc : column x i < 8
  · simp [hc]
  · simp [hc, BitVec.getMsbD_of_ge _ _ (Nat.not_lt.mp hc)]

/-- A column that is not among `cs` has its pixel to itself. -/
theorem dot_and_dots (x : Nat) (b : UInt8) (c : Nat) (cs : List Nat) (hc : c < 64)
    (hnodup : (c :: cs).Nodup) (hcs : ∀ c ∈ cs, c < 64) :
    dot ((x + c) % 64) &&& dots x b cs = 0 := by
  rw [List.nodup_cons] at hnodup
  have hmod : (x + c) % 64 < 64 := Nat.mod_lt _ (by decide)
  apply BitVec.eq_of_getMsbD_eq
  intro i hi
  rw [BitVec.getMsbD_and, getMsbD_dot _ _ hmod, getMsbD_dots x b cs i hi hnodup.2 hcs]
  by_cases h : i = (x + c) % 64
  · have hcol : c = column x i := (add_mod_eq_iff x c i hc hi).mp h.symm
    simp [← hcol, hnodup.1]
  · simp [h]

/-! ## Flips of one row -/

theorem flipRow_zero (s : Screen) (y : Nat) : s.flipRow y 0 = (s, false) := by
  simp [flipRow]

theorem flipRow_mod (s : Screen) (y : Nat) (flips : BitVec 64) :
    s.flipRow (y % 32) flips = s.flipRow y flips := by
  simp [flipRow]

theorem eq_zero_iff_getMsbD (v : BitVec 64) : v = 0 ↔ ∀ i < 64, v.getMsbD i = false := by
  constructor
  · rintro rfl i _
    simp
  · intro hv
    apply BitVec.eq_of_getMsbD_eq
    intro i hi
    simp [hv i hi]

theorem and_xor_eq_zero_iff (r a b : BitVec 64) (h : a &&& b = 0) :
    r &&& (a ^^^ b) = 0 ↔ r &&& a = 0 ∧ (r ^^^ a) &&& b = 0 := by
  have hbit : ∀ i < 64, a.getMsbD i = true → b.getMsbD i = false := by
    intro i hi ha
    have := congrArg (·.getMsbD i) h
    simpa [ha] using this
  rw [eq_zero_iff_getMsbD, eq_zero_iff_getMsbD, eq_zero_iff_getMsbD, ← forall₂_and]
  refine forall₂_congr fun i hi => ?_
  have hab := hbit i hi
  rw [BitVec.getMsbD_and, BitVec.getMsbD_and, BitVec.getMsbD_and, BitVec.getMsbD_xor,
    BitVec.getMsbD_xor]
  revert hab
  cases a.getMsbD i <;> cases b.getMsbD i <;> cases r.getMsbD i <;> decide

/-- Flips that do not meet can be made together. -/
theorem flipRow_xor (s : Screen) (y : Nat) (a b : BitVec 64) (h : a &&& b = 0) :
    s.flipRow y (a ^^^ b) =
      (((s.flipRow y a).1.flipRow y b).1,
        (s.flipRow y a).2 || ((s.flipRow y a).1.flipRow y b).2) := by
  have hy : y % 32 < 32 := Nat.mod_lt y (by decide)
  apply Prod.ext
  · simp [flipRow, BitVec.xor_assoc]
  · have hflag := and_xor_eq_zero_iff s.rows[y % 32] a b h
    simp only [flipRow, Vector.getElem_set_self]
    rw [Bool.eq_iff_iff, Bool.or_eq_true, bne_iff_ne, bne_iff_ne, bne_iff_ne, Ne, hflag]
    exact Classical.not_and_iff_not_or_not

end Chip8.Screen
