import Chip8.Rate
import Chip8.Proofs.Rounding

/-!
# Single-precision numbers as counts

A single that is not negative stands for a number of units. Its arithmetic is that of natural
numbers, rounded to 24 bits, up to the largest finite number.
-/

namespace Chip8.Number.Single

/-- The number is `n` units and has no minus sign. -/
def Counts (x : Single) (n : Nat) : Prop := ∃ u e, x = finite false u e ∧ u * 2 ^ e = n

/-- Counts from here on are not finite. -/
def limit : Nat := 2 ^ 24 * 2 ^ maxExponent

theorem counts_finite (u e : Nat) : (finite false u e).Counts (u * 2 ^ e) := ⟨u, e, rfl, rfl⟩

theorem counts_zero : zero.Counts 0 := ⟨0, 0, rfl, rfl⟩

theorem mul_pow_sub (u : Nat) {i e : Nat} (h : e ≤ i) : u * 2 ^ (i - e) * 2 ^ e = u * 2 ^ i := by
  rw [Nat.mul_assoc, ← Nat.pow_add, Nat.sub_add_cancel h]

variable {a b : Single} {m n : Nat}

theorem Counts.unique (hm : a.Counts m) (hn : a.Counts n) : m = n := by
  obtain ⟨u, i, rfl, rfl⟩ := hm
  obtain ⟨v, j, h, rfl⟩ := hn
  cases h
  rfl

theorem Counts.ge_iff (ha : a.Counts m) (hb : b.Counts n) : a.ge b = true ↔ n ≤ m := by
  obtain ⟨u, i, rfl, rfl⟩ := ha
  obtain ⟨v, j, rfl, rfl⟩ := hb
  simp only [Single.ge, pow2_eq_pow, decide_eq_true_iff]
  rw [← mul_pow_sub u (Nat.min_le_left i j), ← mul_pow_sub v (Nat.min_le_right i j),
    Nat.mul_le_mul_right_iff (Nat.two_pow_pos _)]

theorem Counts.isPositive_iff (ha : a.Counts m) : a.isPositive = true ↔ 0 < m := by
  obtain ⟨u, i, rfl, rfl⟩ := ha
  simp [isPositive]

/-! ## Rounding -/

theorem counts_pack {u e : Nat} (hlow : e = 0 ∨ 2 ^ 23 ≤ u) (h : u * 2 ^ e < limit) :
    (pack false u e).Counts (u * 2 ^ e) := by
  unfold limit at h
  simp only [pack, pow2_eq_pow]
  by_cases htop : u = 2 ^ 24
  · rw [htop] at h
    have hexp := (Nat.pow_lt_pow_iff_right (by decide)).mp (Nat.lt_of_mul_lt_mul_left h)
    have hcarry : u * 2 ^ e = 2 ^ 23 * 2 ^ (e + 1) := by
      rw [htop, Nat.pow_succ' (n := e), ← Nat.mul_assoc, ← Nat.pow_succ]
    rw [if_pos htop, if_pos hexp, hcarry]
    exact counts_finite _ _
  · have hexp : e ≤ maxExponent := by
      rcases hlow with rfl | hlow
      · exact Nat.zero_le _
      · have hpow : 2 ^ 23 * 2 ^ e < 2 ^ 23 * 2 ^ (maxExponent + 1) := by
          calc 2 ^ 23 * 2 ^ e ≤ u * 2 ^ e := Nat.mul_le_mul_right _ hlow
            _ < 2 ^ 24 * 2 ^ maxExponent := h
            _ = 2 ^ 23 * 2 ^ (maxExponent + 1) := by ring
        have hlt := (Nat.pow_lt_pow_iff_right (by decide)).mp (Nat.lt_of_mul_lt_mul_left hpow)
        omega
    rw [if_neg htop, if_pos hexp]
    exact counts_finite u e

theorem pack_infinite (s : Bool) {u e : Nat} (hu : u ≤ 2 ^ 24) (h : limit ≤ u * 2 ^ e) :
    pack s u e = infinite s := by
  unfold limit at h
  have hpow : u * 2 ^ maxExponent ≤ u * 2 ^ e := (Nat.mul_le_mul_right _ hu).trans h
  simp only [pack, pow2_eq_pow]
  by_cases htop : u = 2 ^ 24
  · rw [htop] at h
    have hexp := (Nat.pow_le_pow_iff_right (by decide)).mp (Nat.le_of_mul_le_mul_left h (by decide))
    rw [if_pos htop, if_neg (by omega)]
  · have hlt : u * 2 ^ maxExponent < u * 2 ^ e :=
      (Nat.mul_lt_mul_of_pos_right (by omega) (Nat.two_pow_pos _)).trans_le h
    have hexp := (Nat.pow_lt_pow_iff_right (by decide)).mp (Nat.lt_of_mul_lt_mul_left hlt)
    rw [if_neg htop, if_neg (by omega)]

theorem isPositive_pack_true (u e : Nat) : (pack true u e).isPositive = false := by
  unfold pack
  split_ifs <;> rfl

theorem ofUnits_eq (s : Bool) (num den : Nat) :
    ofUnits s num den =
      pack s (divNearest num (den * 2 ^ lost 24 num den)) (lost 24 num den) := by
  simp [ofUnits, lost]

theorem counts_ofUnits {num den : Nat} (hd : 0 < den) (h : nearest 24 num den < limit) :
    (ofUnits false num den).Counts (nearest 24 num den) := by
  rw [nearest_eq] at h ⊢
  rw [ofUnits_eq]
  apply counts_pack _ h
  rcases Nat.eq_zero_or_pos (lost 24 num den) with hzero | hpos
  · exact .inl hzero
  · exact .inr (le_significand (by decide) hd hpos)

theorem ofUnits_infinite (s : Bool) {num den : Nat} (hd : 0 < den)
    (h : limit ≤ nearest 24 num den) : ofUnits s num den = infinite s := by
  rw [nearest_eq] at h
  rw [ofUnits_eq]
  exact pack_infinite s (significand_le 24 num hd) h

theorem counts_ofScaled {n e : Nat} (hn : n ≠ 0) (h : nearest 24 (n * 2 ^ e) 1 < limit) :
    (ofScaled false n e).Counts (nearest 24 (n * 2 ^ e) 1) := by
  simp only [ofScaled, pow2_eq_pow]
  split_ifs with hsize
  · rw [nearest_mul_pow hn hsize.le] at h ⊢
    have hpos : 0 < lost 24 n 1 := by simp only [lost, excess, Nat.div_one]; omega
    have hlow := le_significand (by decide) Nat.one_pos hpos
    rw [lost, Nat.div_one, Nat.one_mul] at hlow
    exact counts_pack (.inr hlow) h
  · have hlt : n < 2 ^ 24 :=
      Nat.lt_log2_self.trans_le (Nat.pow_le_pow_right (by decide) (by omega))
    rw [nearest_of_fits (by decide) ⟨n, e, hlt, rfl⟩] at h ⊢
    have hsplit : n * 2 ^ Min.min e (24 - (n.log2 + 1)) * 2 ^ (e - Min.min e (24 - (n.log2 + 1))) =
        n * 2 ^ e := by
      rw [Nat.mul_assoc, ← Nat.pow_add, Nat.add_sub_of_le (Nat.min_le_left ..)]
    rw [← hsplit] at h ⊢
    apply counts_pack _ h
    rcases Nat.le_total e (24 - (n.log2 + 1)) with he | he
    · exact .inl (by omega)
    · right
      calc 2 ^ 23 = 2 ^ n.log2 * 2 ^ (24 - (n.log2 + 1)) := by
            rw [← Nat.pow_add]
            congr 1
            omega
        _ ≤ n * 2 ^ Min.min e (24 - (n.log2 + 1)) := by
            rw [Nat.min_eq_right he]
            exact Nat.mul_le_mul_right _ (Nat.log2_self_le hn)

/-! ## Arithmetic -/

theorem Counts.add (ha : a.Counts m) (hb : b.Counts n) (h : nearest 24 (m + n) 1 < limit) :
    (a.add b).Counts (nearest 24 (m + n) 1) := by
  obtain ⟨u, i, rfl, rfl⟩ := ha
  obtain ⟨v, j, rfl, rfl⟩ := hb
  rw [← mul_pow_sub u (Nat.min_le_left i j), ← mul_pow_sub v (Nat.min_le_right i j),
    ← Nat.add_mul] at h ⊢
  simp only [Single.add, pow2_eq_pow, if_true]
  split_ifs with hzero
  · rw [hzero, Nat.zero_mul]
    exact counts_zero
  · exact counts_ofScaled hzero h

theorem Counts.sub (ha : a.Counts m) (hb : b.Counts n) (hle : n ≤ m)
    (h : nearest 24 (m - n) 1 < limit) : (a.sub b).Counts (nearest 24 (m - n) 1) := by
  obtain ⟨u, i, rfl, rfl⟩ := ha
  obtain ⟨v, j, rfl, rfl⟩ := hb
  rw [← mul_pow_sub u (Nat.min_le_left i j), ← mul_pow_sub v (Nat.min_le_right i j)] at hle
  rw [← mul_pow_sub u (Nat.min_le_left i j), ← mul_pow_sub v (Nat.min_le_right i j),
    ← Nat.sub_mul] at h ⊢
  rw [Nat.mul_le_mul_right_iff (Nat.two_pow_pos _)] at hle
  simp only [Single.sub, Single.neg, Single.add, pow2_eq_pow, Bool.not_false, Bool.false_eq_true,
    if_false]
  split_ifs with hsame hlt
  · rw [hsame, Nat.sub_self, Nat.zero_mul]
    exact counts_zero
  · exact counts_ofScaled (by omega) h
  · omega

/-- One divided by `n` units, in units. -/
def inverseOf (n : Nat) : Nat := nearest 24 (one * one) n

theorem inverseOf_anti (hm : 0 < m) (h : m ≤ n) : inverseOf n ≤ inverseOf m :=
  nearest_mono (by decide) (by omega) hm (Nat.mul_le_mul_left _ h)

/-- A number so small that its inverse is not finite has an infinite one. -/
theorem Counts.inverse (ha : a.Counts m) (hm : 0 < m) :
    a.inverse = infinite false ∧ limit ≤ inverseOf m ∨ a.inverse.Counts (inverseOf m) := by
  have hquot : a.inverse = ofUnits false (one * one) m := by
    obtain ⟨u, i, rfl, rfl⟩ := ha
    cases u with
    | zero => simp at hm
    | succ u =>
      rw [← pow2_eq_pow]
      rfl
  rw [hquot]
  rcases Nat.lt_or_ge (inverseOf m) limit with hlt | hge
  · exact .inr (counts_ofUnits hm hlt)
  · exact .inl ⟨ofUnits_infinite false hm hge, hge⟩

end Chip8.Number.Single

/-! ## Rates -/

namespace Chip8.Rate

open Number

theorem counts_of_ofUnits {s : Bool} {num den : Nat} (hd : 0 < den)
    (h : (Single.ofUnits s num den).isPositive = true) :
    ∃ H, (Single.ofUnits s num den).Counts H ∧ Fits 24 H ∧ 0 < H := by
  cases s with
  | true => simp [Single.ofUnits_eq, Single.isPositive_pack_true] at h
  | false =>
    rcases Nat.lt_or_ge (nearest 24 num den) Single.limit with hlt | hge
    · have hc := Single.counts_ofUnits hd hlt
      exact ⟨_, hc, nearest_fits (by decide) num hd, hc.isPositive_iff.mp h⟩
    · simp [Single.ofUnits_infinite false hd hge, Single.isPositive] at h

/-- Whatever is accepted as a rate is a positive count of 24 bits. -/
theorem counts_of_parse? {text : String} {hz : Single} (h : parse? text = some hz) :
    ∃ H, hz.Counts H ∧ Fits 24 H ∧ 0 < H := by
  obtain ⟨n, -, hn⟩ := Option.bind_eq_some_iff.mp h
  split_ifs at hn with hpos
  cases hn
  unfold Numeral.toSingle at hpos ⊢
  split_ifs at hpos ⊢ with hsmall hlarge hexp
  · generalize n.negative = s at hpos
    cases s <;> simp [Single.isPositive] at hpos
  · simp [Single.isPositive] at hpos
  · exact counts_of_ofUnits Nat.one_pos hpos
  · exact counts_of_ofUnits (Nat.pow_pos (by decide)) hpos

end Chip8.Rate
