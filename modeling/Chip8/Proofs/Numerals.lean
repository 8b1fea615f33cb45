import Mathlib.Algebra.Order.Field.Power
import Mathlib.Data.List.TakeWhile
import Chip8.Proofs.Nearest

/-!
# Decimal numerals

A written number is a plus sign or none, digits around a point or none, and a power of ten or none.
Exactly these texts are read as numerals that are not negative, and what they are rounded to is the
single nearest to the number written. A text is a rate where that single is positive and finite.
-/

namespace Chip8.Number

/-! ## Written numbers -/

/-- A power of ten behind a number, such as `e-3`. -/
structure Power where
  mark : Char
  sign : Option Char
  digits : List Char
  mark_eq : mark = 'e' ∨ mark = 'E'
  sign_eq : ∀ c ∈ sign, c = '+' ∨ c = '-'
  digits_ne : digits ≠ []
  isDigit : ∀ c ∈ digits, c.isDigit

/-- A number without a minus sign, such as `+12.5e-3`. -/
structure Decimal where
  plus : Bool
  whole : List Char
  /-- The digits after the point, if there is a point. -/
  fraction : Option (List Char)
  power : Option Power
  digits_ne : whole ++ fraction.getD [] ≠ []
  isDigit : ∀ c ∈ whole ++ fraction.getD [], c.isDigit

def Power.text (p : Power) : List Char := p.mark :: (p.sign.toList ++ p.digits)

def Power.exponent (p : Power) : Int :=
  if p.sign = some '-' then -Nat.ofDigitChars 10 p.digits 0 else Nat.ofDigitChars 10 p.digits 0

namespace Decimal

def text (d : Decimal) : List Char :=
  (if d.plus then ['+'] else []) ++
    (d.whole ++ (d.fraction.elim [] ('.' :: ·) ++ d.power.elim [] Power.text))

def exponent (d : Decimal) : Int := d.power.elim 0 Power.exponent

/-- The number that is written, exactly. -/
def value (d : Decimal) : ℚ :=
  (Nat.ofDigitChars 10 d.whole 0 +
    Nat.ofDigitChars 10 (d.fraction.getD []) 0 / 10 ^ (d.fraction.getD []).length) * 10 ^ d.exponent

end Decimal

/-! ## Reading -/

namespace Numeral

theorem valueOf_eq (cs : List Char) : valueOf cs = Nat.ofDigitChars 10 cs 0 := rfl

/-- Neither sign comes first. -/
def Unsigned (cs : List Char) : Prop := ∀ c ∈ cs.head?, c ≠ '+' ∧ c ≠ '-'

theorem unsigned_of_isDigit {cs : List Char} (h : ∀ c ∈ cs, c.isDigit = true) : Unsigned cs := by
  intro c hc
  have hdigit := h c (List.mem_of_mem_head? hc)
  constructor <;> rintro rfl <;> revert hdigit <;> decide

theorem splitSign_append (sign : Option Char) (hsign : ∀ c ∈ sign, c = '+' ∨ c = '-')
    {cs : List Char} (hcs : Unsigned cs) :
    splitSign (sign.toList ++ cs) = (decide (sign = some '-'), cs) := by
  cases sign with
  | some c => rcases hsign c rfl with rfl | rfl <;> rfl
  | none =>
    cases cs with
    | nil => rfl
    | cons c cs =>
      obtain ⟨hplus, hminus⟩ := hcs c rfl
      simp [splitSign, hplus, hminus]

theorem exists_sign (cs : List Char) :
    ∃ sign : Option Char, (∀ c ∈ sign, c = '+' ∨ c = '-') ∧
      sign.toList ++ (splitSign cs).2 = cs ∧ (splitSign cs).1 = decide (sign = some '-') := by
  unfold splitSign
  split
  · exact ⟨some '-', by simp, rfl, rfl⟩
  · exact ⟨some '+', by simp, rfl, rfl⟩
  · exact ⟨none, by simp, rfl, rfl⟩

theorem exponent?_text (p : Power) : exponent? p.text = some p.exponent := by
  have hall : p.digits.all Char.isDigit = true := List.all_eq_true.mpr p.isDigit
  simp only [Power.text, exponent?, Power.exponent, valueOf_eq,
    splitSign_append p.sign p.sign_eq (unsigned_of_isDigit p.isDigit)]
  simp [p.mark_eq, p.digits_ne, hall]

theorem exponent?_eq_some_iff (cs : List Char) (e : Int) :
    exponent? cs = some e ↔
      ∃ p : Option Power, p.elim [] Power.text = cs ∧ p.elim 0 Power.exponent = e := by
  constructor
  · intro h
    cases cs with
    | nil => exact ⟨none, rfl, Option.some.inj h⟩
    | cons mark cs =>
      obtain ⟨sign, hsign, htext, hminus⟩ := exists_sign cs
      simp only [exponent?, hminus, decide_eq_true_eq] at h
      split at h
      · rename_i hparts
        obtain ⟨hmark, hne, hall⟩ := hparts
        refine ⟨some ⟨mark, sign, (splitSign cs).2, hmark, hsign, hne, List.all_eq_true.mp hall⟩,
          ?_, Option.some.inj h⟩
        simp [Power.text, htext]
      · cases h
  · rintro ⟨p, rfl, rfl⟩
    cases p with
    | none => rfl
    | some p => exact exponent?_text p

/-! ### The digits -/

/-- No digit comes first. -/
def Undigited (cs : List Char) : Prop := ∀ c ∈ cs.head?, c.isDigit = false

theorem span_digits {ds rest : List Char} (hds : ∀ c ∈ ds, c.isDigit = true)
    (hrest : Undigited rest) :
    (ds ++ rest).takeWhile Char.isDigit = ds ∧ (ds ++ rest).dropWhile Char.isDigit = rest := by
  rw [List.takeWhile_append_of_pos hds, List.dropWhile_append_of_pos hds]
  cases rest with
  | nil => simp
  | cons c cs => simp [hrest c rfl]

theorem splitFraction_append {fraction : Option (List Char)}
    (hdigits : ∀ c ∈ fraction.getD [], c.isDigit = true) {cs : List Char} (hcs : Undigited cs)
    (hpoint : ∀ c ∈ cs.head?, c ≠ '.') :
    splitFraction (fraction.elim [] ('.' :: ·) ++ cs) = (fraction.getD [], cs) := by
  cases fraction with
  | some ds =>
    obtain ⟨htake, hdrop⟩ := span_digits hdigits hcs
    rw [Option.getD_some] at htake hdrop
    simp [splitFraction, htake, hdrop]
  | none =>
    cases cs with
    | nil => rfl
    | cons c cs =>
      have hc := hpoint c rfl
      simp [splitFraction, hc]

theorem exists_fraction (cs : List Char) :
    ∃ fraction : Option (List Char), (∀ c ∈ fraction.getD [], c.isDigit = true) ∧
      fraction.elim [] ('.' :: ·) ++ (splitFraction cs).2 = cs ∧
      (splitFraction cs).1 = fraction.getD [] := by
  unfold splitFraction
  split
  · rename_i cs
    refine ⟨some (cs.takeWhile Char.isDigit), ?_, ?_, rfl⟩
    · intro c hc
      exact List.mem_takeWhile_imp hc
    · simp [List.takeWhile_append_dropWhile]
  · exact ⟨none, by simp, rfl, rfl⟩

end Numeral

namespace Decimal

/-- How a written number is kept. -/
def numeral (d : Decimal) : Numeral where
  negative := false
  digits := Numeral.valueOf (d.whole ++ d.fraction.getD [])
  exponent := d.exponent - (d.fraction.getD []).length

theorem head?_power (d : Decimal) :
    ∀ c ∈ (d.power.elim [] Power.text).head?, c = 'e' ∨ c = 'E' := by
  cases hp : d.power with
  | none => simp
  | some p =>
    intro c hc
    cases hc
    exact p.mark_eq

theorem undigited_power (d : Decimal) : Numeral.Undigited (d.power.elim [] Power.text) := by
  intro c hc
  rcases d.head?_power c hc with rfl | rfl <;> decide

theorem undigited_tail (d : Decimal) :
    Numeral.Undigited (d.fraction.elim [] ('.' :: ·) ++ d.power.elim [] Power.text) := by
  cases d.fraction with
  | none => exact d.undigited_power
  | some ds =>
    intro c hc
    cases hc
    decide

theorem unsigned_body (d : Decimal) : Numeral.Unsigned
    (d.whole ++ (d.fraction.elim [] ('.' :: ·) ++ d.power.elim [] Power.text)) := by
  intro c hc
  have hdigits := d.isDigit
  have hne := d.digits_ne
  cases hwhole : d.whole with
  | cons c' cs =>
    rw [hwhole] at hc hdigits
    cases hc
    exact Numeral.unsigned_of_isDigit hdigits c rfl
  | nil =>
    cases hfraction : d.fraction with
    | none => simp [hwhole, hfraction] at hne
    | some ds =>
      rw [hwhole, hfraction] at hc
      cases hc
      decide

theorem ofList?_text (d : Decimal) : Numeral.ofList? d.text = some d.numeral := by
  have hwhole := fun c hc => d.isDigit c (List.mem_append_left _ hc)
  have hfraction := fun c hc => d.isDigit c (List.mem_append_right _ hc)
  have hpoint : ∀ c ∈ (d.power.elim [] Power.text).head?, c ≠ '.' := by
    intro c hc
    rcases d.head?_power c hc with rfl | rfl <;> decide
  obtain ⟨htake, hdrop⟩ := Numeral.span_digits hwhole d.undigited_tail
  have hsign : ∀ c ∈ (if d.plus then some '+' else none : Option Char), c = '+' ∨ c = '-' := by
    split <;> simp
  have htext : d.text = (if d.plus then some '+' else none : Option Char).toList ++
      (d.whole ++ (d.fraction.elim [] ('.' :: ·) ++ d.power.elim [] Power.text)) := by
    unfold text
    split <;> rfl
  have hexponent := (Numeral.exponent?_eq_some_iff _ _).mpr ⟨d.power, rfl, rfl⟩
  simp only [Numeral.ofList?, htext, Numeral.splitSign_append _ hsign d.unsigned_body, htake, hdrop,
    Numeral.splitFraction_append hfraction d.undigited_power hpoint, d.digits_ne, hexponent]
  cases d.plus <;> rfl

end Decimal

/-- The texts that are read as numerals without a minus sign. -/
theorem Numeral.ofList?_eq_some_iff (cs : List Char) (n : Numeral) :
    ofList? cs = some n ∧ n.negative = false ↔ ∃ d : Decimal, d.text = cs ∧ d.numeral = n := by
  constructor
  · rintro ⟨h, hpositive⟩
    obtain ⟨sign, hsign, htext, hminus⟩ := exists_sign cs
    obtain ⟨fraction, hfraction, hrest, hdigits⟩ :=
      exists_fraction ((splitSign cs).2.dropWhile Char.isDigit)
    simp only [ofList?] at h
    split at h
    · cases h
    · rename_i hne
      obtain ⟨e, he, rfl⟩ := Option.map_eq_some_iff.mp h
      obtain ⟨power, hpower, rfl⟩ := (exponent?_eq_some_iff _ _).mp he
      rw [hdigits] at hne
      have hplus : (if decide (sign = some '+') then ['+'] else []) = sign.toList := by
        cases sign with
        | none => rfl
        | some c =>
          rcases hsign c rfl with rfl | rfl
          · rfl
          · simp [hminus] at hpositive
      refine ⟨⟨decide (sign = some '+'), (splitSign cs).2.takeWhile Char.isDigit, fraction, power,
        hne, ?_⟩, ?_, ?_⟩
      · intro c hc
        rcases List.mem_append.mp hc with hc | hc
        · exact List.mem_takeWhile_imp hc
        · exact hfraction c hc
      · rw [Decimal.text, hplus, hpower, hrest, List.takeWhile_append_dropWhile, htext]
      · rw [Decimal.numeral, Decimal.exponent, hdigits]
        exact congrArg (Numeral.mk · _ _) hpositive.symm
  · rintro ⟨d, rfl, rfl⟩
    exact ⟨d.ofList?_text, rfl⟩

/-! ## Rounding -/

namespace Numeral

/-- The number without its sign, exactly. -/
def size (n : Numeral) : ℚ := n.digits * 10 ^ n.exponent

theorem size_lt (n : Numeral) : n.size < 10 ^ n.magnitude := by
  have hdigits := (Nat.length_toDigits_le_iff (n := n.digits) (by decide : 1 < 10)
    Nat.length_toDigits_pos).mp le_rfl
  have hdigits' : (n.digits : ℚ) < 10 ^ (Nat.toDigits 10 n.digits).length := by
    exact_mod_cast hdigits
  rw [size, magnitude, zpow_add₀ (by norm_num), zpow_natCast]
  exact mul_lt_mul_of_pos_right hdigits' (by positivity)

theorem le_size (n : Numeral) (h : n.digits ≠ 0) : 10 ^ (n.magnitude - 1) ≤ n.size := by
  obtain ⟨k, hk⟩ : ∃ k, (Nat.toDigits 10 n.digits).length = k + 1 :=
    ⟨_, (Nat.succ_pred_eq_of_pos Nat.length_toDigits_pos).symm⟩
  have hdigits : 10 ^ k ≤ n.digits := by
    rcases Nat.eq_zero_or_pos k with rfl | hpos
    · exact Nat.one_le_iff_ne_zero.mpr h
    · have hlong := (Nat.length_toDigits_le_iff (n := n.digits) (by decide : 1 < 10) hpos).not.mp
        (by omega)
      omega
  have hdigits' : (10 ^ k : ℚ) ≤ n.digits := by exact_mod_cast hdigits
  have hmagnitude : n.magnitude - 1 = k + n.exponent := by
    unfold magnitude
    omega
  rw [size, hmagnitude, zpow_add₀ (by norm_num), zpow_natCast]
  exact mul_le_mul_of_nonneg_right hdigits' (by positivity)

theorem not_inRange_of_extreme (n : Numeral)
    (h : n.digits = 0 ∨ n.magnitude < -50 ∨ 40 < n.magnitude) : ¬ Single.InRange n.size := by
  rintro ⟨hlow, hhigh⟩
  by_cases hzero : n.digits = 0
  · rw [size, hzero, Nat.cast_zero, zero_mul] at hlow
    exact absurd hlow (by norm_num)
  rcases h.resolve_left hzero with hsmall | hlarge
  · have hpow : (10 : ℚ) ^ n.magnitude ≤ 10 ^ (-51 : ℤ) :=
      zpow_le_zpow_right₀ (by norm_num) (by omega)
    have hsize := n.size_lt
    norm_num at hlow hpow
    linarith
  · have hpow : (10 : ℚ) ^ (40 : ℤ) ≤ 10 ^ (n.magnitude - 1) :=
      zpow_le_zpow_right₀ (by norm_num) (by omega)
    have hsize := n.le_size hzero
    norm_num at hhigh hpow
    linarith

/-- Where the digits are looked at, the size is rounded as it is. -/
theorem toSingle_cases (n : Numeral) :
    n.toSingle.isPositive = false ∧ ¬ Single.InRange n.size ∨
      ∃ num den, 0 < den ∧ n.toSingle = .ofUnits n.negative num den ∧
        (num / den / 2 ^ 149 : ℚ) = n.size := by
  have hone : (Single.one : ℚ) = 2 ^ 149 := by
    rw [Single.one, pow2_eq_pow, Nat.cast_pow, Nat.cast_ofNat]
  unfold toSingle
  split_ifs with hsmall hlarge hexp
  · left
    refine ⟨?_, n.not_inRange_of_extreme (by tauto)⟩
    cases n.negative <;> rfl
  · exact .inl ⟨rfl, n.not_inRange_of_extreme (by tauto)⟩
  · refine .inr ⟨_, 1, Nat.one_pos, rfl, ?_⟩
    obtain ⟨k, hk⟩ := Int.eq_ofNat_of_zero_le hexp
    rw [size, hk]
    push_cast [hone]
    simp
  · refine .inr ⟨_, _, Nat.pow_pos (by decide), rfl, ?_⟩
    obtain ⟨k, hk⟩ : ∃ k : Nat, n.exponent = -k := ⟨(-n.exponent).toNat, by omega⟩
    have hpow : (-n.exponent).toNat = k := by omega
    rw [size, hpow, hk, zpow_neg, zpow_natCast]
    push_cast [hone]
    field_simp

theorem isPositive_toSingle_iff (n : Numeral) :
    n.toSingle.isPositive = true ↔ n.negative = false ∧ Single.InRange n.size := by
  rcases n.toSingle_cases with ⟨hfalse, hrange⟩ | ⟨num, den, hd, hunits, hsize⟩
  · simp [hfalse, hrange]
  · rw [hunits, ← hsize]
    cases n.negative with
    | false => simp [Single.isPositive_ofUnits_iff hd]
    | true => simp [Single.ofUnits_eq, Single.isPositive_pack_true]

theorem isNearest_toSingle (n : Numeral) (h : n.toSingle.isPositive = true) :
    Single.ofBits n.toSingle.toBits = n.toSingle ∧ Single.IsNearest n.size n.toSingle.toBits := by
  obtain ⟨hsign, hrange⟩ := n.isPositive_toSingle_iff.mp h
  rcases n.toSingle_cases with ⟨-, hout⟩ | ⟨num, den, hd, hunits, hsize⟩
  · exact absurd hrange hout
  · rw [← hsize] at hrange ⊢
    rw [hunits, hsign]
    have hlt := (Single.nearest_lt_limit_iff num hd).mpr ((Single.inRange_iff hd).mp hrange).2
    refine ⟨?_, Single.isNearest_ofUnits hd hlt⟩
    obtain ⟨u, e, hfinite, hregular, -⟩ := Single.exists_regular_ofUnits hd hlt
    rw [hfinite, Single.ofBits_toBits hregular]

end Numeral

theorem Decimal.size_numeral (d : Decimal) : d.numeral.size = d.value := by
  have hdigits : d.numeral.digits = 10 ^ (d.fraction.getD []).length * Nat.ofDigitChars 10 d.whole 0
      + Nat.ofDigitChars 10 (d.fraction.getD []) 0 := by
    rw [numeral, Numeral.valueOf_eq, Nat.ofDigitChars_append, Nat.ofDigitChars_eq_ofDigitChars_zero]
  rw [Numeral.size, hdigits, value, numeral, zpow_sub₀ (by norm_num), zpow_natCast]
  push_cast
  field_simp

end Chip8.Number

/-! ## Rates -/

namespace Chip8.Rate

open Number

theorem parse?_text {s : String} (d : Decimal) (hd : d.text = s.toList) :
    parse? s = if d.numeral.toSingle.isPositive then some d.numeral.toSingle else none := by
  rw [parse?, ← hd, d.ofList?_text]
  rfl

theorem parse?_eq_some_iff (s : String) (r : Single) :
    parse? s = some r ↔
      ∃ d : Decimal, d.text = s.toList ∧ Single.InRange d.value ∧ d.numeral.toSingle = r := by
  constructor
  · intro h
    obtain ⟨n, hn, hr⟩ := Option.bind_eq_some_iff.mp h
    split at hr
    · rename_i hpositive
      obtain ⟨hsign, hrange⟩ := n.isPositive_toSingle_iff.mp hpositive
      obtain ⟨d, htext, rfl⟩ := (Numeral.ofList?_eq_some_iff _ n).mp ⟨hn, hsign⟩
      rw [d.size_numeral] at hrange
      exact ⟨d, htext, hrange, Option.some.inj hr⟩
    · cases hr
  · rintro ⟨d, htext, hrange, rfl⟩
    rw [← d.size_numeral] at hrange
    rw [parse?_text d htext, if_pos (d.numeral.isPositive_toSingle_iff.mpr ⟨rfl, hrange⟩)]

theorem read_eq_ok_iff (s : String) (r : Single) : read s = .ok r ↔ parse? s = some r := by
  unfold read
  cases parse? s <;> simp

theorem read_of_parse?_eq_none {s : String} (h : parse? s = none) :
    read s = .error (invalid s) := by
  unfold read
  rw [h]

/-- **Rates.** The texts that are read as rates are those of numbers above 2⁻¹⁵⁰ and below
2¹²⁸ - 2¹⁰³ without a minus sign. Such a text is read as the single nearest to its number, whose
last bit is zero if there are two, and it is positive. Any other text is answered with a message that
quotes it. -/
theorem read_rounds_decimal (s : String) :
    ((∃ r, read s = .ok r) ↔
      ∃ d : Decimal, d.text = s.toList ∧ 1 / 2 ^ 150 < d.value ∧ d.value < 2 ^ 128 - 2 ^ 103) ∧
    (∀ (d : Decimal) (r : Single), d.text = s.toList → read s = .ok r →
      Single.ofBits r.toBits = r ∧ Single.IsNearest d.value r.toBits ∧
        ∃ v, r.value? = some v ∧ 0 < v) ∧
    ((¬ ∃ d : Decimal, d.text = s.toList ∧ 1 / 2 ^ 150 < d.value ∧ d.value < 2 ^ 128 - 2 ^ 103) →
      read s = .error ("Invalid rate: '" ++ s ++ "', expected a positive number")) := by
  have hread : (∃ r, read s = .ok r) ↔
      ∃ d : Decimal, d.text = s.toList ∧ Single.InRange d.value := by
    simp only [read_eq_ok_iff, parse?_eq_some_iff]
    constructor
    · rintro ⟨r, d, htext, hrange, -⟩
      exact ⟨d, htext, hrange⟩
    · rintro ⟨d, htext, hrange⟩
      exact ⟨_, d, htext, hrange, rfl⟩
  refine ⟨hread, ?_, ?_⟩
  · intro d r htext h
    rw [read_eq_ok_iff, parse?_text d htext] at h
    split at h
    · rename_i hpositive
      cases h
      obtain ⟨hbits, hnearest⟩ := d.numeral.isNearest_toSingle hpositive
      rw [d.size_numeral] at hnearest
      exact ⟨hbits, hnearest, Single.value?_pos hpositive⟩
    · cases h
  · intro hnone
    cases hparse : parse? s with
    | none => exact read_of_parse?_eq_none hparse
    | some r => exact absurd (hread.mp ⟨r, (read_eq_ok_iff s r).mpr hparse⟩) hnone

end Chip8.Rate
