import Mathlib.Tactic.Linarith
import Mathlib.Tactic.Ring
import Mathlib.Tactic.SplitIfs
import Chip8.Number.Rounding

/-!
# Rounding as arithmetic

A rounded quotient is within half a place of the exact one, halfway cases go to the even neighbour,
and a larger quotient is never rounded to a smaller value. Values that fit the precision are kept.
-/

namespace Chip8.Number

@[simp]
theorem pow2_eq_pow (k : Nat) : pow2 k = 2 ^ k := pow2_eq k

/-! ## To an integer -/

theorem two_mul_divNearest_le (num : Nat) {den : Nat} (hd : 0 < den) :
    2 * (den * divNearest num den) ≤ 2 * num + den := by
  have hq := Nat.div_add_mod num den
  have hr := Nat.mod_lt num hd
  unfold divNearest
  dsimp only
  split_ifs
  · omega
  · rw [Nat.mul_succ]
    omega
  · obtain h | h := Nat.mod_two_eq_zero_or_one (num / den) <;> rw [h]
    · rw [Nat.add_zero]
      omega
    · rw [Nat.mul_succ]
      omega

theorem two_mul_le_divNearest (num : Nat) {den : Nat} (hd : 0 < den) :
    2 * num ≤ 2 * (den * divNearest num den) + den := by
  have hq := Nat.div_add_mod num den
  have hr := Nat.mod_lt num hd
  unfold divNearest
  dsimp only
  split_ifs
  · omega
  · rw [Nat.mul_succ]
    omega
  · rw [Nat.mul_add]
    omega

theorem divNearest_half {num den m : Nat} (hd : 0 < den) (h : 2 * num = den * (2 * m + 1)) :
    divNearest num den = m + m % 2 := by
  have hnum : 2 * num = 2 * (den * m) + den := by rw [h]; ring
  have hq : num / den = m := by
    rw [Nat.div_eq_iff hd]
    rw [Nat.mul_comm m den]
    omega
  have hr := Nat.div_add_mod num den
  rw [hq] at hr
  unfold divNearest
  dsimp only
  rw [hq, if_neg (by omega), if_neg (by omega)]

theorem divNearest_mono {a b c d : Nat} (hb : 0 < b) (hd : 0 < d) (h : a * d ≤ c * b) :
    divNearest a b ≤ divNearest c d := by
  by_contra hlt
  rw [Nat.not_le] at hlt
  have hlow := two_mul_divNearest_le a hb
  have hhigh := two_mul_le_divNearest c hd
  generalize hm : divNearest c d = m at hlt hhigh
  -- Then both are halfway between the two integers, and go to the same one.
  have ha : b * (2 * m + 1) ≤ 2 * a := by nlinarith
  have hc : 2 * c ≤ d * (2 * m + 1) := by nlinarith
  have ha' : 2 * a = b * (2 * m + 1) := by nlinarith
  have hc' : 2 * c = d * (2 * m + 1) := by nlinarith
  rw [divNearest_half hb ha', ← hm, divNearest_half hd hc'] at hlt
  omega

@[simp]
theorem divNearest_mul (m : Nat) {den : Nat} (hd : 0 < den) : divNearest (m * den) den = m := by
  simp [divNearest, Nat.mul_div_cancel m hd, hd]

theorem divNearest_le_of_le {num den m : Nat} (hd : 0 < den) (h : num ≤ m * den) :
    divNearest num den ≤ m := by
  calc divNearest num den ≤ divNearest (m * den) den :=
        divNearest_mono hd hd (Nat.mul_le_mul_right den h)
    _ = m := divNearest_mul m hd

theorem le_divNearest_of_le {num den m : Nat} (hd : 0 < den) (h : m * den ≤ num) :
    m ≤ divNearest num den := by
  calc m = divNearest (m * den) den := (divNearest_mul m hd).symm
    _ ≤ divNearest num den := divNearest_mono hd hd (Nat.mul_le_mul_right den h)

/-! ## To a precision -/

/-- The value has at most `p` significant bits. -/
def Fits (p n : Nat) : Prop := ∃ u e, u < 2 ^ p ∧ n = u * 2 ^ e

theorem lt_pow_excess (p q : Nat) : q < 2 ^ (p + excess p q) := by
  calc q < 2 ^ (q.log2 + 1) := Nat.lt_log2_self
    _ ≤ 2 ^ (p + excess p q) := Nat.pow_le_pow_right (by decide) (by unfold excess; omega)

variable {p : Nat}

theorem pow_excess_le (hp : 0 < p) {q : Nat} (hk : 0 < excess p q) :
    2 ^ (p + excess p q) ≤ 2 * q := by
  have hq : q ≠ 0 := by
    rintro rfl
    simp [excess] at hk
    omega
  have hsum : p + excess p q = q.log2 + 1 := by
    unfold excess at hk ⊢
    omega
  rw [hsum, Nat.pow_succ', Nat.mul_le_mul_left_iff (by decide)]
  exact Nat.log2_self_le hq

theorem excess_mono (hp : 0 < p) {q q' : Nat} (h : q ≤ q') : excess p q ≤ excess p q' := by
  by_contra hlt
  have hlow := pow_excess_le hp (q := q) (by omega)
  have hhigh := lt_pow_excess p q'
  have hpow : 2 ^ (p + excess p q) < 2 ^ (p + excess p q' + 1) := by
    rw [Nat.pow_succ]
    omega
  rw [Nat.pow_lt_pow_iff_right (by decide)] at hpow
  omega

theorem excess_mul_pow {n : Nat} (hn : n ≠ 0) (h : p ≤ n.log2 + 1) (e : Nat) :
    excess p (n * 2 ^ e) = e + excess p n := by
  have hlog : (n * 2 ^ e).log2 = n.log2 + e := by
    rw [Nat.log2_eq_iff (by positivity)]
    have hhigh := Nat.mul_lt_mul_of_pos_right (Nat.lt_log2_self (n := n)) (Nat.two_pow_pos e)
    rw [← Nat.pow_add] at hhigh
    rw [Nat.add_right_comm, Nat.pow_add]
    exact ⟨Nat.mul_le_mul_right _ (Nat.log2_self_le hn), hhigh⟩
  unfold excess
  omega

/-- How many of the low bits of a quotient are lost. -/
def lost (p num den : Nat) : Nat := excess p (num / den)

theorem nearest_eq (p num den : Nat) :
    nearest p num den =
      divNearest num (den * 2 ^ lost p num den) * 2 ^ lost p num den := by
  simp [nearest, lost]

theorem significand_le (p num : Nat) {den : Nat} (hd : 0 < den) :
    divNearest num (den * 2 ^ lost p num den) ≤ 2 ^ p := by
  apply divNearest_le_of_le (by positivity)
  have h := lt_pow_excess p (num / den)
  rw [Nat.div_lt_iff_lt_mul hd, Nat.pow_add] at h
  calc num ≤ 2 ^ p * 2 ^ lost p num den * den := h.le
    _ = 2 ^ p * (den * 2 ^ lost p num den) := by ring

/-- A quotient that loses bits needs all of `p`. -/
theorem pow_mul_le_of_lost (hp : 0 < p) {num den : Nat} (hd : 0 < den) (hk : 0 < lost p num den) :
    2 ^ (p - 1) * (den * 2 ^ lost p num den) ≤ num := by
  have h : 2 * 2 ^ (p - 1 + lost p num den) ≤ 2 * (num / den) := by
    rw [← Nat.pow_succ', show (p - 1 + lost p num den).succ = p + lost p num den by omega]
    exact pow_excess_le hp hk
  have hle := Nat.le_of_mul_le_mul_left h (by decide)
  rw [Nat.le_div_iff_mul_le hd, Nat.pow_add] at hle
  calc 2 ^ (p - 1) * (den * 2 ^ lost p num den)
      = 2 ^ (p - 1) * 2 ^ lost p num den * den := by ring
    _ ≤ num := hle

theorem le_significand (hp : 0 < p) {num den : Nat} (hd : 0 < den) (hk : 0 < lost p num den) :
    2 ^ (p - 1) ≤ divNearest num (den * 2 ^ lost p num den) :=
  le_divNearest_of_le (by positivity) (pow_mul_le_of_lost hp hd hk)

theorem nearest_fits (hp : 0 < p) (num : Nat) {den : Nat} (hd : 0 < den) :
    Fits p (nearest p num den) := by
  rw [nearest_eq]
  rcases (significand_le p num hd).lt_or_eq with hlt | heq
  · exact ⟨_, _, hlt, rfl⟩
  · refine ⟨2 ^ (p - 1), lost p num den + 1, Nat.pow_lt_pow_right (by decide) (by omega), ?_⟩
    rw [heq, ← Nat.pow_add, ← Nat.pow_add]
    congr 1
    omega

theorem nearest_mono (hp : 0 < p) {a b c d : Nat} (hb : 0 < b) (hd : 0 < d) (h : a * d ≤ c * b) :
    nearest p a b ≤ nearest p c d := by
  have hquot : a / b ≤ c / d := by
    rw [Nat.le_div_iff_mul_le hd]
    apply Nat.le_of_mul_le_mul_right _ hb
    calc a / b * d * b = a / b * b * d := by ring
      _ ≤ a * d := Nat.mul_le_mul_right d (Nat.div_mul_le_self a b)
      _ ≤ c * b := h
  rw [nearest_eq, nearest_eq]
  rcases (show lost p a b ≤ lost p c d from excess_mono hp hquot).lt_or_eq with hlt | heq
  · -- The larger quotient is in a higher binade: a power of two lies between.
    calc divNearest a (b * 2 ^ lost p a b) * 2 ^ lost p a b
        ≤ 2 ^ p * 2 ^ lost p a b := Nat.mul_le_mul_right _ (significand_le p a hb)
      _ = 2 ^ (p + lost p a b) := (Nat.pow_add ..).symm
      _ ≤ 2 ^ (p - 1 + lost p c d) := Nat.pow_le_pow_right (by decide) (by omega)
      _ = 2 ^ (p - 1) * 2 ^ lost p c d := Nat.pow_add ..
      _ ≤ divNearest c (d * 2 ^ lost p c d) * 2 ^ lost p c d :=
        Nat.mul_le_mul_right _ (le_significand hp hd (by omega))
  · rw [heq]
    apply Nat.mul_le_mul_right
    apply divNearest_mono (by positivity) (by positivity)
    calc a * (d * 2 ^ lost p c d) = a * d * 2 ^ lost p c d := by ring
      _ ≤ c * b * 2 ^ lost p c d := Nat.mul_le_mul_right _ h
      _ = c * (b * 2 ^ lost p c d) := by ring

theorem nearest_of_fits (hp : 0 < p) {n : Nat} (h : Fits p n) : nearest p n 1 = n := by
  obtain ⟨u, e, hu, hn⟩ := h
  have hdvd : 2 ^ lost p n 1 ∣ n := by
    rcases Nat.eq_zero_or_pos (lost p n 1) with hzero | hpos
    · simp [hzero]
    · have hlow : 2 ^ (p + lost p n 1) ≤ 2 * n := by
        simpa [lost] using pow_excess_le hp hpos
      have hhigh : 2 * n < 2 ^ (p + e + 1) := by
        rw [hn, Nat.pow_succ', Nat.pow_add]
        gcongr
      have hlost := (Nat.pow_lt_pow_iff_right (by decide)).mp (hlow.trans_lt hhigh)
      have hdvd : 2 ^ lost p n 1 ∣ u * 2 ^ e :=
        Dvd.dvd.mul_left (Nat.pow_dvd_pow 2 (by omega)) u
      rwa [← hn] at hdvd
  obtain ⟨m, hm⟩ := hdvd
  rw [nearest_eq, Nat.one_mul]
  generalize lost p n 1 = k at hm ⊢
  rw [hm, Nat.mul_comm (2 ^ k) m, divNearest_mul m (by positivity)]

theorem nearest_le_of_le (hp : 0 < p) {a b m : Nat} (hb : 0 < b) (hm : Fits p m)
    (h : a ≤ m * b) : nearest p a b ≤ m := by
  calc nearest p a b ≤ nearest p m 1 := nearest_mono hp hb (by decide) (by omega)
    _ = m := nearest_of_fits hp hm

theorem le_nearest_of_le (hp : 0 < p) {a b m : Nat} (hb : 0 < b) (hm : Fits p m)
    (h : m * b ≤ a) : m ≤ nearest p a b := by
  calc m = nearest p m 1 := (nearest_of_fits hp hm).symm
    _ ≤ nearest p a b := nearest_mono hp (by decide) hb (by omega)

theorem nearest_mul_pow {n : Nat} (hn : n ≠ 0) (h : p ≤ n.log2 + 1) (e : Nat) :
    nearest p (n * 2 ^ e) 1 = divNearest n (2 ^ excess p n) * 2 ^ (e + excess p n) := by
  rw [nearest_eq, lost, Nat.div_one, excess_mul_pow hn h, Nat.one_mul]
  congr 1
  apply Nat.le_antisymm
  · exact divNearest_mono (by positivity) (by positivity) (by rw [Nat.pow_add, Nat.mul_assoc])
  · exact divNearest_mono (by positivity) (by positivity) (by rw [Nat.pow_add, Nat.mul_assoc])

theorem fits_pow (hp : 0 < p) (J : Nat) : Fits p (2 ^ J) :=
  ⟨1, J, Nat.one_lt_two_pow (by omega), by simp⟩

theorem Fits.lt_or_dvd {n : Nat} (hn : Fits p n) (e : Nat) :
    2 * n < 2 ^ p * 2 ^ e ∨ 2 ^ e ∣ n := by
  obtain ⟨u, f, hu, rfl⟩ := hn
  rcases Nat.lt_or_ge f e with hlt | hge
  · left
    calc 2 * (u * 2 ^ f) = u * 2 ^ (f + 1) := by ring
      _ < 2 ^ p * 2 ^ (f + 1) := Nat.mul_lt_mul_of_pos_right hu (Nat.two_pow_pos _)
      _ ≤ 2 ^ p * 2 ^ e := Nat.mul_le_mul_left _ (Nat.pow_le_pow_right (by decide) hlt)
  · exact .inr (Dvd.dvd.mul_left (Nat.pow_dvd_pow 2 hge) u)

/-- Between `w - 1` and `w` of a place there is no value, if `w` needs all bits. -/
theorem Fits.le_pred {n w e : Nat} (hn : Fits p n) (hw : 2 ^ p ≤ 2 * (w - 1)) (h : n < w * 2 ^ e) :
    n ≤ (w - 1) * 2 ^ e := by
  rcases hn.lt_or_dvd e with hsmall | ⟨m, rfl⟩
  · have hle := Nat.mul_le_mul_right (2 ^ e) hw
    rw [Nat.mul_assoc] at hle
    omega
  · rw [Nat.mul_comm] at h ⊢
    have hm := Nat.lt_of_mul_lt_mul_right h
    exact Nat.mul_le_mul_right _ (by omega)

theorem Fits.succ_le {n w e : Nat} (hn : Fits p n) (hw : 2 ^ p ≤ 2 * w) (h : w * 2 ^ e < n) :
    (w + 1) * 2 ^ e ≤ n := by
  rcases hn.lt_or_dvd e with hsmall | ⟨m, rfl⟩
  · have hle := Nat.mul_le_mul_right (2 ^ e) hw
    rw [Nat.mul_assoc] at hle
    omega
  · rw [Nat.mul_comm (2 ^ e)] at h ⊢
    exact Nat.mul_le_mul_right _ (Nat.lt_of_mul_lt_mul_right h)

/-- Where a falling function drops below a bound. -/
theorem Fits.lt_iff_of_anti {f : Nat → Nat} (hf : ∀ {m n}, 0 < m → m ≤ n → f n ≤ f m)
    {n w e bound : Nat} (hn : Fits p n) (hpos : 0 < n) (hw : 2 ^ p ≤ 2 * w)
    (hat : bound ≤ f (w * 2 ^ e)) (hnext : f ((w + 1) * 2 ^ e) < bound) :
    f n < bound ↔ w * 2 ^ e < n := by
  constructor
  · intro h
    by_contra hle
    have hge := hf hpos (Nat.le_of_not_lt hle)
    omega
  · intro h
    have hle := hf (by positivity) (hn.succ_le hw h)
    omega

/-- What is added by rounding is less than `t`, as long as `t` is more than half a place. -/
theorem nearest_lt_add (hp : 0 < p) {x t J : Nat} (hx : x < 2 ^ J) (ht : 2 ^ J < 2 ^ (p + 1) * t) :
    nearest p x 1 < x + t := by
  have ht0 : 0 < t := by
    rcases Nat.eq_zero_or_pos t with rfl | hpos
    · simp at ht
    · exact hpos
  rw [nearest_eq, Nat.one_mul]
  rcases Nat.eq_zero_or_pos (lost p x 1) with hzero | hpos
  · have hexact := divNearest_mul x Nat.one_pos
    rw [Nat.mul_one] at hexact
    simp [hzero, hexact, ht0]
  · have hlow : 2 ^ (p + lost p x 1) ≤ 2 * x := by
      simpa [lost] using pow_excess_le hp hpos
    have hlost : 2 ^ (p + lost p x 1) ≤ 2 ^ J := by
      have hpow : 2 ^ (p + lost p x 1) < 2 ^ (J + 1) := by
        rw [Nat.pow_succ]
        omega
      rw [Nat.pow_lt_pow_iff_right (by decide)] at hpow
      exact Nat.pow_le_pow_right (by decide) (by omega)
    have hplace : 2 ^ lost p x 1 < 2 * t := by
      rw [Nat.pow_add] at hlost
      apply Nat.lt_of_mul_lt_mul_left (a := 2 ^ p)
      calc 2 ^ p * 2 ^ lost p x 1 ≤ 2 ^ J := hlost
        _ < 2 ^ (p + 1) * t := ht
        _ = 2 ^ p * (2 * t) := by ring
    have herror := two_mul_divNearest_le x (Nat.two_pow_pos (lost p x 1))
    rw [Nat.mul_comm (divNearest _ _)]
    omega

end Chip8.Number
