import Mathlib.Algebra.Order.Field.Rat
import Mathlib.Data.Nat.Cast.Order.Field
import Mathlib.Tactic.FieldSimp
import Mathlib.Tactic.NormNum
import Mathlib.Tactic.Positivity
import Chip8.Proofs.Singles

/-!
# The nearest single

No value that fits a precision is nearer to a quotient than the rounded one, and only an even one
has another as near. For singles this says which of the 2³² patterns of bits a quotient is rounded
to, and where it becomes zero or infinite.
-/

namespace Chip8.Number

/-! ## No value is nearer -/

/-- How far `n` is from `num / den`, in parts of `den`. -/
def distance (num den n : Nat) : Nat := (n * den - num) + (num - n * den)

theorem divNearest_nearer (num : Nat) {den m : Nat} (hd : 0 < den) (hm : m ≠ divNearest num den) :
    distance num den (divNearest num den) < distance num den m ∨
      distance num den (divNearest num den) = distance num den m ∧ divNearest num den % 2 = 0 := by
  have hhigh := two_mul_divNearest_le num hd
  have hlow := two_mul_le_divNearest num hd
  generalize hn : divNearest num den = n at hm hhigh hlow ⊢
  unfold distance
  rw [Nat.mul_comm n, Nat.mul_comm m]
  rcases Nat.lt_or_gt_of_ne hm with hbelow | habove
  · have hgap := Nat.mul_le_mul_left den hbelow
    rw [Nat.succ_eq_add_one, Nat.mul_add_one] at hgap
    by_cases htie : 2 * num + den = 2 * (den * n)
    · have heven : divNearest num den = n - 1 + (n - 1) % 2 := by
        apply divNearest_half hd
        have hpred := Nat.mul_sub_one den n
        rw [Nat.mul_add_one, Nat.mul_left_comm]
        omega
      omega
    · omega
  · have hgap := Nat.mul_le_mul_left den habove
    rw [Nat.succ_eq_add_one, Nat.mul_add_one] at hgap
    by_cases htie : 2 * num = 2 * (den * n) + den
    · have heven : divNearest num den = n + n % 2 := by
        apply divNearest_half hd
        rw [htie, Nat.mul_add_one, Nat.mul_left_comm]
      omega
    · omega

theorem nearest_nearer {p : Nat} (hp : 0 < p) (num : Nat) {den n : Nat} (hd : 0 < den)
    (hfits : Fits p n) (hn : n ≠ nearest p num den) :
    distance num den (nearest p num den) < distance num den n ∨
      distance num den (nearest p num den) = distance num den n ∧
        divNearest num (den * 2 ^ lost p num den) % 2 = 0 := by
  rw [nearest_eq] at hn ⊢
  have hscale : ∀ m, distance num den (m * 2 ^ lost p num den) =
      distance num (den * 2 ^ lost p num den) m := by
    intro m
    rw [distance, distance, Nat.mul_assoc, Nat.mul_comm (2 ^ _) den]
  have hd' : 0 < den * 2 ^ lost p num den := by positivity
  have hcases : 2 ^ lost p num den ∣ n ∨
      0 < lost p num den ∧ n < 2 ^ (p - 1) * 2 ^ lost p num den := by
    rcases Nat.eq_zero_or_pos (lost p num den) with hzero | hpos
    · simp [hzero]
    · refine (hfits.lt_or_dvd (lost p num den)).symm.imp_right fun hsmall => ⟨hpos, ?_⟩
      rw [← Nat.two_pow_pred_mul_two hp, Nat.mul_right_comm] at hsmall
      omega
  rw [hscale]
  rcases hcases with ⟨m, rfl⟩ | ⟨hlost, hsmall⟩
  · rw [Nat.mul_comm (2 ^ _) m] at hn ⊢
    rw [hscale]
    apply divNearest_nearer num hd'
    rintro rfl
    exact hn rfl
  · -- A value with lower places than the quotient keeps is below the least that has none.
    left
    have hlow := pow_mul_le_of_lost hp hd hlost
    have hless : n * den < 2 ^ (p - 1) * (den * 2 ^ lost p num den) := by
      calc n * den < 2 ^ (p - 1) * 2 ^ lost p num den * den := Nat.mul_lt_mul_of_pos_right hsmall hd
        _ = 2 ^ (p - 1) * (den * 2 ^ lost p num den) := by ring
    have hleast : distance num (den * 2 ^ lost p num den)
        (divNearest num (den * 2 ^ lost p num den)) ≤
        distance num (den * 2 ^ lost p num den) (2 ^ (p - 1)) := by
      rcases eq_or_ne (2 ^ (p - 1)) (divNearest num (den * 2 ^ lost p num den)) with h | h
      · rw [h]
      · rcases divNearest_nearer num hd' h with h | ⟨h, -⟩ <;> omega
    apply hleast.trans_lt
    unfold distance
    omega

namespace Single

/-! ## Values and bits -/

/-- The value of a finite number. -/
def value? : Single → Option ℚ
  | finite negative significand exponent =>
    some ((if negative then -1 else 1) * (significand * 2 ^ exponent / 2 ^ 149))
  | _ => none

theorem value?_pos {x : Single} (h : x.isPositive = true) : ∃ v, x.value? = some v ∧ 0 < v := by
  match x, h with
  | finite false u e, h =>
    have hu : 0 < u := by simpa [isPositive] using h
    refine ⟨_, rfl, ?_⟩
    rw [if_neg (by decide), one_mul]
    positivity

/-- `q` is rounded to `v` rather than to `w`. Of two that are as near it takes an even one. -/
def Prefers (q v w : ℚ) (even : Prop) : Prop :=
  |v - q| < |w - q| ∨ |v - q| = |w - q| ∧ (w = v ∨ even)

/-- The bits are those of the finite number nearest to `q`. If another one is as near, they end in
a zero. -/
def IsNearest (q : ℚ) (bits : UInt32) : Prop :=
  ∃ v, (ofBits bits).value? = some v ∧
    ∀ other w, (ofBits other).value? = some w → Prefers q v w (bits % 2 = 0)

/-- The significand and exponent of a number that has bits of its own. -/
structure Regular (u e : Nat) : Prop where
  significand_lt : u < 2 ^ 24
  exponent_le : e ≤ maxExponent
  normal : e = 0 ∨ 2 ^ 23 ≤ u

theorem fits_of_ofBits {bits : UInt32} {s : Bool} {u e : Nat} (h : ofBits bits = finite s u e) :
    Fits 24 (u * 2 ^ e) := by
  refine ⟨u, e, ?_, rfl⟩
  have hmod := Nat.mod_lt bits.toNat (Nat.two_pow_pos 23)
  simp only [ofBits, pow2_eq_pow] at h
  split_ifs at h
  · injection h with _ hu
    omega
  · injection h with _ hu
    omega

theorem toNat_toBits {u e : Nat} (h : Regular u e) :
    (finite false u e).toBits.toNat = e * 2 ^ 23 + u := by
  have hu := h.significand_lt
  have he : e ≤ 253 := h.exponent_le
  simp only [toBits, toBits.signBit, pow2_eq_pow]
  simp
  omega

theorem ofBits_toBits {u e : Nat} (h : Regular u e) :
    ofBits (finite false u e).toBits = finite false u e := by
  have hu := h.significand_lt
  have he : e ≤ 253 := h.exponent_le
  have hsign : (e * 2 ^ 23 + u) / 2 ^ 31 = 0 := by omega
  simp only [ofBits, pow2_eq_pow, toNat_toBits h, hsign]
  rcases Nat.lt_or_ge u (2 ^ 23) with hsubnormal | hnormal
  · have he : e = 0 := h.normal.resolve_right (by omega)
    subst he
    have hexp : (0 * 2 ^ 23 + u) / 2 ^ 23 % 2 ^ 8 = 0 := by omega
    have hrest : (0 * 2 ^ 23 + u) % 2 ^ 23 = u := by omega
    rw [hexp, hrest, if_neg (by decide), if_pos rfl]
    rfl
  · have hexp : (e * 2 ^ 23 + u) / 2 ^ 23 % 2 ^ 8 = e + 1 := by omega
    have hrest : (e * 2 ^ 23 + u) % 2 ^ 23 = u - 2 ^ 23 := by omega
    rw [hexp, hrest, if_neg (by omega), if_neg (by omega), Nat.add_sub_of_le hnormal]
    rfl

theorem toBits_mod_two {u e : Nat} (h : Regular u e) (hu : u % 2 = 0) :
    (finite false u e).toBits % 2 = 0 := by
  rw [← UInt32.toNat_inj, UInt32.toNat_mod, toNat_toBits h]
  have hmod : (e * 2 ^ 23 + u) % 2 = 0 := by omega
  exact hmod

theorem exists_regular_ofUnits {num den : Nat} (hd : 0 < den) (h : nearest 24 num den < limit) :
    ∃ u e, ofUnits false num den = finite false u e ∧ Regular u e ∧
      u * 2 ^ e = nearest 24 num den ∧
      (divNearest num (den * 2 ^ lost 24 num den) % 2 = 0 → u % 2 = 0) := by
  have hcounts := counts_ofUnits hd h
  have hle := significand_le 24 num hd
  have hlow : 0 < lost 24 num den → 2 ^ 23 ≤ divNearest num (den * 2 ^ lost 24 num den) :=
    le_significand (by decide) hd
  rw [ofUnits_eq] at hcounts ⊢
  simp only [pack, pow2_eq_pow] at hcounts ⊢
  split_ifs at hcounts ⊢ with htop hexp hexp
  · exact ⟨_, _, rfl, ⟨by decide, hexp, .inr (by decide)⟩,
      (counts_finite _ _).unique hcounts, fun _ => by decide⟩
  · obtain ⟨_, _, hinfinite, _⟩ := hcounts
    cases hinfinite
  · exact ⟨_, _, rfl, ⟨by omega, hexp, by omega⟩, (counts_finite _ _).unique hcounts, id⟩
  · obtain ⟨_, _, hinfinite, _⟩ := hcounts
    cases hinfinite

/-! ## Rounding to the nearest single -/

theorem abs_sub_eq_distance (num : Nat) {den : Nat} (hd : 0 < den) (n : Nat) :
    |(n / 2 ^ 149 : ℚ) - num / den / 2 ^ 149| = (distance num den n : ℚ) / (den * 2 ^ 149) := by
  have hd' : (0 : ℚ) < den := by exact_mod_cast hd
  have hquot : (n / 2 ^ 149 : ℚ) - num / den / 2 ^ 149 = (n * den - num) / (den * 2 ^ 149) := by
    field_simp
  have hdist : |(n * den - num : ℚ)| = distance num den n := by
    unfold distance
    rcases Nat.le_total num (n * den) with hle | hle
    · rw [Nat.sub_eq_zero_of_le hle, Nat.add_zero, Nat.cast_sub hle, Nat.cast_mul]
      exact abs_of_nonneg (by rw [sub_nonneg]; exact_mod_cast hle)
    · rw [Nat.sub_eq_zero_of_le hle, Nat.zero_add, Nat.cast_sub hle, Nat.cast_mul, abs_sub_comm]
      exact abs_of_nonneg (by rw [sub_nonneg]; exact_mod_cast hle)
  rw [hquot, abs_div, hdist, abs_of_pos (by positivity)]

theorem prefers_nearest (num : Nat) {den n : Nat} (hd : 0 < den) (hn : Fits 24 n) :
    Prefers (num / den / 2 ^ 149) (nearest 24 num den / 2 ^ 149) (n / 2 ^ 149)
      (divNearest num (den * 2 ^ lost 24 num den) % 2 = 0) := by
  rcases eq_or_ne n (nearest 24 num den) with rfl | hne
  · exact .inr ⟨rfl, .inl rfl⟩
  have hd' : (0 : ℚ) < den * 2 ^ 149 := by positivity
  simp only [Prefers, abs_sub_eq_distance num hd, div_lt_div_iff_of_pos_right hd',
    div_left_inj' hd'.ne', Nat.cast_lt, Nat.cast_inj]
  exact (nearest_nearer (by decide) num hd hn hne).imp_right (And.imp_right .inr)

/-- What is not preferred to zero is not preferred to a negative number. -/
theorem Prefers.neg {q v w : ℚ} {even : Prop} (h : Prefers q v 0 even) (hq : 0 ≤ q) (hw : 0 ≤ w) :
    Prefers q v (-w) even := by
  rcases hw.eq_or_lt with rfl | hpos
  · rwa [neg_zero]
  · left
    have hfar : |(-w) - q| = w + q := by
      rw [abs_of_nonpos (by linarith)]
      ring
    have hzero : |0 - q| = q := by
      rw [zero_sub, abs_neg, abs_of_nonneg hq]
    have hle : |v - q| ≤ |0 - q| := h.elim le_of_lt fun h => h.1.le
    linarith

theorem isNearest_ofUnits {num den : Nat} (hd : 0 < den) (h : nearest 24 num den < limit) :
    IsNearest (num / den / 2 ^ 149) (ofUnits false num den).toBits := by
  obtain ⟨u, e, hfinite, hregular, hcount, heven⟩ := exists_regular_ofUnits hd h
  have hvalue : (finite false u e).value? = some (nearest 24 num den / 2 ^ 149 : ℚ) := by
    simp [value?, ← hcount]
  have hpreferred : ∀ n, Fits 24 n → Prefers (num / den / 2 ^ 149) (nearest 24 num den / 2 ^ 149)
      (n / 2 ^ 149) ((finite false u e).toBits % 2 = 0) := by
    intro n hn
    exact (prefers_nearest num hd hn).imp_right
      (And.imp_right (Or.imp_right fun hzero => toBits_mod_two hregular (heven hzero)))
  rw [hfinite]
  refine ⟨_, by rw [ofBits_toBits hregular, hvalue], ?_⟩
  intro other w hw
  cases hother : ofBits other with
  | nan => simp [hother, value?] at hw
  | infinite s => simp [hother, value?] at hw
  | finite s u' e' =>
    have hn := hpreferred (u' * 2 ^ e') (fits_of_ofBits hother)
    rw [hother] at hw
    cases hw
    push_cast at hn
    cases s with
    | false => simpa using hn
    | true =>
      have hzero := hpreferred 0 ⟨0, 0, by decide, rfl⟩
      rw [Nat.cast_zero, zero_div] at hzero
      simpa using hzero.neg (by positivity) (by positivity)

/-- Half a unit is the tie between zero and one unit, and goes to zero. -/
theorem nearest_pos_iff (num : Nat) {den : Nat} (hd : 0 < den) :
    0 < nearest 24 num den ↔ den < 2 * num := by
  constructor
  · intro hpos
    by_contra hle
    have hmono : nearest 24 num den ≤ nearest 24 1 2 :=
      nearest_mono (by decide) hd (by decide) (by omega)
    have htie : nearest 24 1 2 = 0 := by decide
    omega
  · intro hlt
    by_contra hzero
    have hone : Fits 24 1 := ⟨1, 0, by decide, rfl⟩
    have hnearer := nearest_nearer (by decide) num hd hone (by omega)
    rw [Nat.eq_zero_of_not_pos hzero] at hnearer
    unfold distance at hnearer
    omega

/-- The tie between the largest number and the next power of two goes to the power. -/
theorem nearest_lt_limit_iff (num : Nat) {den : Nat} (hd : 0 < den) :
    nearest 24 num den < limit ↔ num < (2 ^ 25 - 1) * 2 ^ 252 * den := by
  constructor
  · intro hlt
    by_contra hge
    have hmono : nearest 24 ((2 ^ 25 - 1) * 2 ^ 252) 1 ≤ nearest 24 num den :=
      nearest_mono (by decide) (by decide) hd (by omega)
    have htie : limit ≤ nearest 24 ((2 ^ 25 - 1) * 2 ^ 252) 1 := by decide
    omega
  · intro hlt
    by_contra hge
    have hlargest : Fits 24 ((2 ^ 24 - 1) * 2 ^ 253) := ⟨2 ^ 24 - 1, 253, by decide, rfl⟩
    have hlimit : (2 ^ 24 - 1) * 2 ^ 253 < limit := by decide
    have hnearer := nearest_nearer (by decide) num hd hlargest (by omega)
    have hscaled := Nat.mul_le_mul_right den (Nat.le_of_not_lt hge)
    unfold distance at hnearer
    unfold limit maxExponent at hscaled
    omega

/-- The numbers that are rounded neither to zero nor to infinity. -/
def InRange (q : ℚ) : Prop := 1 / 2 ^ 150 < q ∧ q < 2 ^ 128 - 2 ^ 103

theorem inRange_iff {num den : Nat} (hd : 0 < den) :
    InRange (num / den / 2 ^ 149) ↔ den < 2 * num ∧ num < (2 ^ 25 - 1) * 2 ^ 252 * den := by
  have hd' : (0 : ℚ) < den := by exact_mod_cast hd
  have hlow : (1 / 2 ^ 150 : ℚ) < num / den / 2 ^ 149 ↔ (den : ℚ) < 2 * num := by
    rw [div_div, div_lt_div_iff₀ (by positivity) (by positivity)]
    constructor <;> intro h <;> linarith
  have hhigh : (num / den / 2 ^ 149 : ℚ) < 2 ^ 128 - 2 ^ 103 ↔
      (num : ℚ) < (2 ^ 25 - 1 : Nat) * 2 ^ 252 * den := by
    rw [div_div, div_lt_iff₀ (by positivity)]
    norm_num only
    constructor <;> intro h <;> linarith
  rw [InRange, hlow, hhigh]
  exact_mod_cast Iff.rfl

theorem isPositive_ofUnits_iff {num den : Nat} (hd : 0 < den) :
    (ofUnits false num den).isPositive = true ↔ InRange (num / den / 2 ^ 149) := by
  rw [inRange_iff hd, ← nearest_pos_iff num hd, ← nearest_lt_limit_iff num hd]
  rcases Nat.lt_or_ge (nearest 24 num den) limit with hlt | hge
  · rw [(counts_ofUnits hd hlt).isPositive_iff]
    exact (and_iff_left hlt).symm
  · rw [ofUnits_infinite false hd hge]
    simp only [isPositive, Bool.false_eq_true, false_iff]
    omega

end Single

end Chip8.Number
