import Mathlib.Algebra.Order.Field.Rat
import Mathlib.Data.Nat.Cast.Order.Field
import Mathlib.Data.Rat.Cast.Order
import Mathlib.Tactic.FieldSimp
import Mathlib.Tactic.NormNum
import Mathlib.Tactic.Positivity
import Chip8.Proofs.TimerRate

/-!
# What a timer reads

A reading is a quotient in doubles of two durations in doubles, rounded to an integer. Every
rounding on the way is monotone, so a reading never rises. Up to 256 periods they are off by 2⁻⁴¹
together, so away from a tie the exact quotient has the same nearest integer.
-/

namespace Chip8

open Number

namespace Number

/-! ## The error of a rounding -/

theorem abs_divNearest_sub_le (num : Nat) {den : Nat} (hd : 0 < den) :
    |(divNearest num den : ℚ) - num / den| ≤ 1 / 2 := by
  have hd' : (0 : ℚ) < den := by exact_mod_cast hd
  have hhigh : (2 * (den * divNearest num den) : ℚ) ≤ 2 * num + den := by
    exact_mod_cast two_mul_divNearest_le num hd
  have hlow : (2 * num : ℚ) ≤ 2 * (den * divNearest num den) + den := by
    exact_mod_cast two_mul_le_divNearest num hd
  rw [abs_sub_le_iff]
  constructor
  · rw [sub_le_comm, le_div_iff₀ hd']
    linarith
  · rw [sub_le_iff_le_add, div_le_iff₀ hd']
    linarith

theorem divNearest_eq_of_abs_lt {num den m : Nat} (hd : 0 < den)
    (h : |(num / den : ℚ) - m| < 1 / 2) : divNearest num den = m := by
  have hclose : |(divNearest num den : ℚ) - m| < 1 := by
    calc |(divNearest num den : ℚ) - m|
        ≤ |(divNearest num den : ℚ) - num / den| + |(num / den : ℚ) - m| := abs_sub_le _ _ _
      _ < 1 / 2 + 1 / 2 := add_lt_add_of_le_of_lt (abs_divNearest_sub_le num hd) h
      _ = 1 := by norm_num
  have hsame : |(divNearest num den - m : Int)| < 1 := by exact_mod_cast hclose
  rw [Int.abs_lt_one_iff] at hsame
  omega

theorem abs_nearest_sub_le_place (p num : Nat) {den : Nat} (hd : 0 < den) :
    |(nearest p num den : ℚ) - num / den| ≤ 2 ^ lost p num den / 2 := by
  have hround := abs_divNearest_sub_le num (show 0 < den * 2 ^ lost p num den by positivity)
  rw [nearest_eq]
  generalize lost p num den = k at hround ⊢
  generalize divNearest num _ = u at hround ⊢
  push_cast at hround ⊢
  have hscale : (u * 2 ^ k - num / den : ℚ) = (u - num / (den * 2 ^ k)) * 2 ^ k := by
    field_simp
  rw [hscale, abs_mul, abs_of_pos (show (0 : ℚ) < 2 ^ k by positivity)]
  linarith [mul_le_mul_of_nonneg_right hround (show (0 : ℚ) ≤ 2 ^ k by positivity)]

variable {p : Nat}

theorem two_pow_lost_le (hp : 0 < p) {num den : Nat} (hk : 0 < lost p num den) :
    (2 ^ lost p num den / 2 : ℚ) ≤ (num / den) / 2 ^ p := by
  have h := pow_excess_le hp hk
  rw [Nat.pow_add] at h
  have hq : ((num / den : Nat) : ℚ) ≤ num / den := Nat.cast_div_le
  have h' : (2 ^ p * 2 ^ lost p num den : ℚ) ≤ 2 * (num / den : Nat) := by exact_mod_cast h
  rw [le_div_iff₀ (by positivity)]
  linarith

/-- Off by one part in 2 ^ p of the quotient, or half a unit if that is more. -/
theorem abs_nearest_sub_le (hp : 0 < p) (num : Nat) {den : Nat} (hd : 0 < den) :
    |(nearest p num den : ℚ) - num / den| ≤ max (num / den : ℚ) (2 ^ (p - 1)) / 2 ^ p := by
  refine (abs_nearest_sub_le_place p num hd).trans ?_
  rcases Nat.eq_zero_or_pos (lost p num den) with hzero | hpos
  · have hhalf : (2 : ℚ) ^ lost p num den / 2 = 2 ^ (p - 1) / 2 ^ p := by
      obtain ⟨n, rfl⟩ : ∃ n, p = n + 1 := ⟨p - 1, by omega⟩
      rw [hzero, Nat.add_sub_cancel, pow_succ]
      field_simp
    rw [hhalf]
    gcongr
    exact le_max_right _ _
  · refine (two_pow_lost_le hp hpos).trans ?_
    gcongr
    exact le_max_left _ _

theorem abs_nearest_one_sub_le (hp : 0 < p) (n : Nat) :
    |(nearest p n 1 : ℚ) - n| ≤ n / 2 ^ p := by
  rcases Nat.eq_zero_or_pos (lost p n 1) with hzero | hpos
  · have hexact : nearest p n 1 = n := by
      have hone := divNearest_mul n Nat.one_pos
      rw [Nat.mul_one] at hone
      simp [nearest_eq, hzero, hone]
    rw [hexact, sub_self, abs_zero]
    positivity
  · have hplace := abs_nearest_sub_le_place p n Nat.one_pos
    have hlost := two_pow_lost_le hp hpos
    rw [Nat.cast_one, div_one] at hplace hlost
    exact hplace.trans hlost

/-- What is added to a full significand is lost, if it is less than half a place. -/
theorem nearest_add_of_lt {u k r : Nat} (hlow : 2 ^ p ≤ 2 * u) (hhigh : u < 2 ^ p)
    (hr : 2 * r < 2 ^ k) : nearest p (u * 2 ^ k + r) 1 = u * 2 ^ k := by
  have hp : p ≠ 0 := by
    rintro rfl
    omega
  obtain ⟨n, rfl⟩ : ∃ n, p = n + 1 := ⟨p - 1, by omega⟩
  rw [Nat.pow_succ'] at hlow
  have hu : 2 ^ n ≤ u := by omega
  have hpos : 0 < u := (Nat.two_pow_pos n).trans_le hu
  have hlog : (u * 2 ^ k + r).log2 = n + k := by
    have hbelow := Nat.mul_le_mul_right (2 ^ k) hu
    have habove := Nat.mul_le_mul_right (2 ^ k) (Nat.succ_le_of_lt hhigh)
    rw [Nat.log2_eq_iff (by positivity), Nat.add_right_comm, Nat.pow_add, Nat.pow_add]
    rw [Nat.succ_mul] at habove
    omega
  have hlost : lost (n + 1) (u * 2 ^ k + r) 1 = k := by
    unfold lost excess
    rw [Nat.div_one, hlog]
    omega
  have hround : divNearest (u * 2 ^ k + r) (2 ^ k) = u := by
    rw [divNearest, Nat.mul_comm u, Nat.mul_add_div (Nat.two_pow_pos k), Nat.mul_add_mod,
      Nat.div_eq_of_lt (by omega), Nat.mod_eq_of_lt (by omega)]
    simp [hr]
  rw [nearest_eq, hlost, Nat.one_mul, hround]

end Number

namespace Duration

/-! ## Durations never shrink -/

/-- A fraction of a second stays less than a second. -/
theorem rest_lt (ns : Nat) : nearest 53 (ns % second * unit) second < unit := by
  have hmod := Nat.mod_lt ns (show 0 < second by decide)
  have hle : nearest 53 (ns % second * unit) second ≤ (2 ^ 30 - 1) * 2 ^ 52 := by
    apply nearest_le_of_le (by decide) (by decide) ⟨2 ^ 30 - 1, 52, by decide, rfl⟩
    calc ns % second * unit ≤ (second - 1) * unit := Nat.mul_le_mul_right unit (by omega)
      _ ≤ (2 ^ 30 - 1) * 2 ^ 52 * second := by decide
  exact hle.trans_lt (by decide)

theorem fits_mul_unit {W : Nat} (hW : Fits 53 W) : Fits 53 (W * unit) := by
  obtain ⟨u, e, hu, rfl⟩ := hW
  exact ⟨u, e + 82, hu, by simp [unit, Nat.pow_add, Nat.mul_assoc]⟩

theorem fits_of_le {n : Nat} (h : n ≤ 2 ^ 53) : Fits 53 n := by
  rcases h.lt_or_eq with hlt | rfl
  · exact ⟨n, 0, hlt, by simp⟩
  · exact fits_pow (by decide) 53

/-- From 2 ^ 53 seconds on a fraction of one is lost. -/
theorem nearest_add_rest {W r : Nat} (hW : Fits 53 W) (hlarge : 2 ^ 53 ≤ W) (hr : r < unit) :
    nearest 53 (W * unit + r) 1 = W * unit := by
  have hunit : unit = 2 ^ 82 := pow2_eq_pow 82
  have hexcess : 0 < excess 53 W := by
    have hlog := (Nat.le_log2 (by omega)).mpr hlarge
    unfold excess
    omega
  have hlow := pow_excess_le (by decide) hexcess
  have hhigh := lt_pow_excess 53 W
  generalize excess 53 W = e at hexcess hlow hhigh
  rw [Nat.pow_add] at hlow hhigh
  obtain ⟨u, rfl⟩ : 2 ^ e ∣ W := (hW.lt_or_dvd e).resolve_left (by omega)
  have hplace : 2 ^ e * u * unit = u * 2 ^ (e + 82) := by
    rw [hunit]
    ring
  rw [hplace]
  apply nearest_add_of_lt
  · apply Nat.le_of_mul_le_mul_right _ (Nat.two_pow_pos e)
    linarith
  · apply Nat.lt_of_mul_lt_mul_right (a := 2 ^ e)
    linarith
  · calc 2 * r < 2 ^ 1 * 2 ^ 82 := by omega
      _ ≤ 2 ^ e * 2 ^ 82 := Nat.mul_le_mul_right _ (Nat.pow_le_pow_right (by decide) hexcess)
      _ = 2 ^ (e + 82) := (Nat.pow_add ..).symm

/-- Of two durations the one with more whole seconds is not shorter, whatever their fractions. -/
theorem nearest_add_rest_le {w w' r r' : Nat} (hw : w < w') (hr : r < unit) :
    nearest 53 (nearest 53 w 1 * unit + r) 1 ≤ nearest 53 (nearest 53 w' 1 * unit + r') 1 := by
  rcases Nat.lt_or_ge w (2 ^ 53) with hsmall | hlarge
  · -- The next second can still be told apart.
    have hnext : w + 1 ≤ nearest 53 w' 1 :=
      le_nearest_of_le (by decide) Nat.one_pos (fits_of_le hsmall) (by omega)
    have hmul := Nat.mul_le_mul_right unit hnext
    rw [Nat.add_mul, Nat.one_mul] at hmul
    apply nearest_mono (by decide) Nat.one_pos Nat.one_pos
    rw [nearest_of_fits (by decide) (fits_of_le hsmall.le)]
    omega
  · have hfits := nearest_fits (p := 53) (by decide) w Nat.one_pos
    have hlarge' : 2 ^ 53 ≤ nearest 53 w 1 :=
      le_nearest_of_le (by decide) Nat.one_pos (fits_of_le le_rfl) (by omega)
    have hmono : nearest 53 w 1 ≤ nearest 53 w' 1 :=
      nearest_mono (by decide) Nat.one_pos Nat.one_pos (by omega)
    have hmul := Nat.mul_le_mul_right unit hmono
    rw [nearest_add_rest hfits hlarge' hr]
    exact le_nearest_of_le (by decide) Nat.one_pos (fits_mul_unit hfits) (by omega)

theorem seconds_mono {ns ns' : Nat} (h : ns ≤ ns') : seconds ns ≤ seconds ns' := by
  unfold seconds
  dsimp only
  have hwhole : ns / second ≤ ns' / second := Nat.div_le_div_right h
  rcases hwhole.lt_or_eq with hlt | heq
  · exact nearest_add_rest_le hlt (rest_lt ns)
  · have hmod : ns % second ≤ ns' % second := by
      have hns := Nat.div_add_mod ns second
      have hns' := Nat.div_add_mod ns' second
      rw [heq] at hns
      omega
    have hrest : nearest 53 (ns % second * unit) second ≤
        nearest 53 (ns' % second * unit) second := by
      apply nearest_mono (by decide) (by decide) (by decide)
      gcongr
    rw [heq]
    apply nearest_mono (by decide) Nat.one_pos Nat.one_pos
    omega

theorem seconds_pos {ns : Nat} (h : 0 < ns) : 0 < seconds ns :=
  calc 0 < seconds 1 := by decide +kernel
    _ ≤ seconds ns := seconds_mono h

theorem quotient_mono {ns ns' period : Nat} (hp : 0 < period) (h : ns ≤ ns') :
    quotient ns period ≤ quotient ns' period := by
  have hpos := seconds_pos hp
  apply divNearest_mono (by decide) (by decide)
  apply Nat.mul_le_mul_right
  apply nearest_mono (by decide) hpos hpos
  gcongr
  exact seconds_mono h

/-! ## How far a quotient is off -/

theorem cast_unit : (unit : ℚ) = 2 ^ 82 := by
  rw [unit, pow2_eq_pow]
  norm_num

theorem cast_second : (second : ℚ) = 10 ^ 9 := by norm_num [second]

theorem abs_rest_sub_le (r : Nat) :
    |(nearest 53 (r * unit) second : ℚ) - r * 2 ^ 82 / 10 ^ 9| ≤
      (r * 2 ^ 82 / 10 ^ 9 : ℚ) / 2 ^ 53 := by
  rcases Nat.eq_zero_or_pos r with rfl | hpos
  · have hzero : nearest 53 0 second = 0 := by decide +kernel
    simp [hzero]
  · have herror := abs_nearest_sub_le (p := 53) (by decide) (r * unit)
      (show 0 < second by decide)
    -- A nanosecond already fills the precision.
    have hlarge : (2 : ℚ) ^ (53 - 1) ≤ r * 2 ^ 82 / 10 ^ 9 := by
      have hr : (1 : ℚ) ≤ r := by exact_mod_cast hpos
      norm_num
      linarith
    rwa [Nat.cast_mul, cast_unit, cast_second, max_eq_left hlarge] at herror

theorem abs_seconds_sub_le (ns : Nat) :
    |(seconds ns : ℚ) - ns * 2 ^ 82 / 10 ^ 9| ≤ (ns * 2 ^ 82 / 10 ^ 9 : ℚ) / 2 ^ 51 := by
  unfold seconds
  dsimp only
  have hns : (ns : ℚ) = 10 ^ 9 * (ns / second : Nat) + (ns % second : Nat) := by
    rw [← cast_second]
    exact_mod_cast (Nat.div_add_mod ns second).symm
  have hwhole := abs_nearest_one_sub_le (p := 53) (by decide) (ns / second)
  have hrest := abs_rest_sub_le (ns % second)
  generalize ns / second = w at hns hwhole ⊢
  generalize ns % second = r at hns hrest ⊢
  generalize nearest 53 w 1 = W at hwhole ⊢
  generalize nearest 53 (r * unit) second = R at hrest ⊢
  have hsum := abs_nearest_one_sub_le (p := 53) (by decide) (W * unit + R)
  rw [Nat.cast_add, Nat.cast_mul, cast_unit] at hsum
  rw [hns]
  rw [abs_le] at *
  constructor <;> linarith

theorem abs_div_sub_le {x p S P : ℚ} (hx : 0 ≤ x) (hp : 0 < p)
    (hS : |S - x * p| ≤ x * p / 2 ^ 51) (hP : |P - p| ≤ p / 2 ^ 51) :
    |S / P - x| ≤ 3 * x / 2 ^ 51 := by
  rw [abs_le] at hS hP
  have hpos : 0 < P := by linarith
  have hxp : 0 ≤ x * p := by positivity
  have hlow : x * (p - p / 2 ^ 51) ≤ x * P := by
    gcongr
    linarith
  have hhigh : x * P ≤ x * (p + p / 2 ^ 51) := by
    gcongr
    linarith
  rw [abs_sub_le_iff]
  constructor
  · rw [sub_le_iff_le_add, div_le_iff₀ hpos]
    linarith
  · rw [sub_le_comm, le_div_iff₀ hpos]
    linarith

theorem abs_quotient_sub_le (ns : Nat) {period : Nat} (hp : 0 < period) :
    |(nearest 53 (seconds ns * unit) (seconds period) : ℚ) / unit - ns / period| ≤
      max (ns / period : ℚ) 1 / 2 ^ 49 := by
  have hp' : (0 : ℚ) < period := by exact_mod_cast hp
  have hns := abs_seconds_sub_le ns
  have hperiod := abs_seconds_sub_le period
  have hround := abs_nearest_sub_le (p := 53) (by decide) (seconds ns * unit) (seconds_pos hp)
  have hx : (0 : ℚ) ≤ ns / period := by positivity
  have hratio : (ns * 2 ^ 82 / 10 ^ 9 : ℚ) = ns / period * (period * 2 ^ 82 / 10 ^ 9) := by
    field_simp
  rw [hratio] at hns
  have hquot := abs_div_sub_le hx (by positivity) hns hperiod
  rw [Nat.cast_mul, cast_unit, mul_div_right_comm] at hround
  rw [cast_unit]
  generalize (ns / period : ℚ) = x at hx hquot ⊢
  generalize (seconds ns / seconds period : ℚ) = y at hround hquot
  rw [abs_le] at hquot
  have hone := le_max_right x 1
  have hxm := le_max_left x 1
  have hplace : max (y * 2 ^ 82) (2 ^ (53 - 1)) ≤ 2 ^ 83 * max x 1 := by
    apply max_le
    · linarith
    · norm_num
      linarith
  have hround' := hround.trans (div_le_div_of_nonneg_right hplace (by positivity))
  rw [abs_le] at hround' ⊢
  constructor <;> linarith

/-- Away from a tie the exact quotient is closer to its integer than the errors reach. -/
theorem abs_sub_divNearest_lt {ns period : Nat} (hp : 0 < period)
    (h : nearTie ns period = false) :
    |(ns / period : ℚ) - divNearest ns period| < 1 / 2 - 1 / 2 ^ 41 := by
  unfold nearTie at h
  rw [decide_eq_false_iff_not, Nat.not_le, pow2_eq_pow,
    Nat.div_lt_iff_lt_mul (Nat.two_pow_pos 40)] at h
  have hp' : (0 : ℚ) < period := by exact_mod_cast hp
  have hns : (ns / period : ℚ) = (ns / period : Nat) + (ns % period : Nat) / period := by
    field_simp
    exact_mod_cast (Nat.div_add_mod ns period).symm
  have hmod := Nat.mod_lt ns hp
  rw [hns, divNearest]
  generalize ns % period = r at h hmod ⊢
  split_ifs with hbelow habove
  · have hgap : period + 2 * r * 2 ^ 40 < period * 2 ^ 40 := by omega
    have hgap' : (period + 2 * r * 2 ^ 40 : ℚ) < period * 2 ^ 40 := by exact_mod_cast hgap
    rw [add_sub_cancel_left, abs_of_nonneg (by positivity), div_lt_iff₀ hp']
    linarith
  · have hgap : period + period * 2 ^ 40 < 2 * r * 2 ^ 40 := by omega
    have hgap' : (period + period * 2 ^ 40 : ℚ) < 2 * r * 2 ^ 40 := by exact_mod_cast hgap
    have hmod' : (r : ℚ) < period := by exact_mod_cast hmod
    rw [Nat.cast_succ, add_sub_add_left_eq_sub, abs_sub_comm, abs_of_nonneg, sub_lt_comm,
      lt_div_iff₀ hp']
    · linarith
    · rw [sub_nonneg, div_le_one hp']
      exact hmod'.le
  · omega

theorem quotient_eq_of_abs_lt {ns period m : Nat} (hp : 0 < period) (hle : ns ≤ 256 * period)
    (h : |(ns / period : ℚ) - m| < 1 / 2 - 1 / 2 ^ 41) : quotient ns period = m := by
  have hp' : (0 : ℚ) < period := by exact_mod_cast hp
  have hle' : (ns / period : ℚ) ≤ 256 := by
    rw [div_le_iff₀ hp']
    exact_mod_cast hle
  apply divNearest_eq_of_abs_lt (by decide)
  refine (abs_sub_le _ (ns / period : ℚ) _).trans_lt ?_
  calc _ < max (ns / period : ℚ) 1 / 2 ^ 49 + (1 / 2 - 1 / 2 ^ 41) :=
        add_lt_add_of_le_of_lt (abs_quotient_sub_le ns hp) h
    _ ≤ 256 / 2 ^ 49 + (1 / 2 - 1 / 2 ^ 41) := by
      gcongr
      exact max_le hle' (by norm_num)
    _ = 1 / 2 := by norm_num

/-- A quotient in doubles everywhere gives the same readings. -/
theorem periods_eq_quotient (ns : Nat) {period : Nat} (hp : 0 < period) :
    periods ns period = min 255 (quotient ns period) := by
  unfold periods
  split_ifs with htie
  · rfl
  rw [Bool.not_eq_true] at htie
  rcases Nat.le_total ns (256 * period) with hle | hge
  · rw [quotient_eq_of_abs_lt hp hle (abs_sub_divNearest_lt hp htie)]
  · have hexact : 256 ≤ divNearest ns period := le_divNearest_of_le hp hge
    have hfull : quotient (256 * period) period = 256 := by
      apply quotient_eq_of_abs_lt hp le_rfl
      have hp' : (period : ℚ) ≠ 0 := by exact_mod_cast hp.ne'
      rw [Nat.cast_mul, mul_div_cancel_right₀ _ hp', sub_self, abs_zero]
      norm_num
    have hmono := quotient_mono hp hge
    omega

theorem min_quotient_mul {period : Nat} (hp : 0 < period) (v : Nat) :
    min 255 (quotient (period * v) period) = min 255 v := by
  rw [← periods_eq_quotient _ hp, periods_mul hp]

end Duration

namespace Timer

theorem toNat_get {t : Timer} {target : Nat} (hp : 0 < t.period) (ht : t.target = some target)
    (u : Nat) : (t.get u).toNat = min 255 (Duration.quotient (target - u) t.period) := by
  unfold get
  rw [ht]
  dsimp only
  split_ifs with hover hempty
  · have hzero := Duration.min_quotient_mul hp 0
    rw [Nat.sub_eq_zero_of_le hover]
    exact hzero.symm
  · omega
  · have hle : Duration.periods (target - u) t.period ≤ 255 := Nat.min_le_left _ _
    rw [UInt8.toNat_ofNat', Nat.mod_eq_of_lt (by omega), Duration.periods_eq_quotient _ hp]

/-- **What a timer reads.** A timer set to `v` reads a whole period later one less, but at most 255.
Its reading never rises, and is zero once the `v` periods are over. Setting it again leaves nothing
of what it was set to before. -/
theorem reading_counts_down {t t' : Timer} {v now : Nat} (hp : 0 < t.period)
    (h : t.set? v now = some t') :
    (∀ k ≤ v, (t'.get (now + k * t.period)).toNat = min 255 (v - k)) ∧
    (∀ u u', u ≤ u' → t'.get u' ≤ t'.get u) ∧
    (∀ u, now + v * t.period ≤ u → t'.get u = 0) ∧
    ∀ v' now', t'.set? v' now' = t.set? v' now' := by
  obtain ⟨-, rfl⟩ := (t.set?_eq_some_iff t' v now).mp h
  have hget := fun u => toNat_get (t := { t with target := some (now + t.period * v) }) hp rfl u
  refine ⟨fun k hk => ?_, fun u u' hle => ?_, fun u hover => ?_, fun v' now' => rfl⟩
  · have hleft : now + t.period * v - (now + k * t.period) = t.period * (v - k) := by
      rw [Nat.add_sub_add_left, Nat.mul_comm k, ← Nat.mul_sub]
    rw [hget, hleft, Duration.min_quotient_mul hp]
  · rw [UInt8.le_iff_toNat_le, hget, hget]
    have hmono := Duration.quotient_mono hp (Nat.sub_le_sub_left hle (now + t.period * v))
    dsimp only
    omega
  · have hnone : now + t.period * v - u = t.period * 0 := by
      rw [Nat.mul_comm] at hover
      omega
    rw [← UInt8.toNat_inj, hget, hnone, Duration.min_quotient_mul hp]
    rfl

/-- At 60 Hz, which is no whole number of nanoseconds. -/
theorem reading_counts_down_sixty_hertz :
    ∃ t', ({ period := 16666667 } : Timer).set? 300 5 = some t' ∧
      (∀ k ≤ 300, (t'.get (5 + k * 16666667)).toNat = min 255 (300 - k)) ∧
      (∀ u u', u ≤ u' → t'.get u' ≤ t'.get u) ∧
      (∀ u, 5 + 300 * 16666667 ≤ u → t'.get u = 0) ∧
      t'.set? 7 6 = ({ period := 16666667 } : Timer).set? 7 6 := by
  have hset : ({ period := 16666667 } : Timer).set? 300 5 =
      some { period := 16666667, target := some 5000000105 } := by
    decide
  obtain ⟨hdown, hmono, hover, hagain⟩ := reading_counts_down (by decide) hset
  exact ⟨_, hset, hdown, hmono, hover, hagain 7 6⟩

end Timer

end Chip8
