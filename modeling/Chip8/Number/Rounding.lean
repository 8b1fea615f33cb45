/-!
# Rounding

Binary floating-point values are counted in units of the format's smallest positive value, so a
value is a natural number and a format is its precision. A quotient is rounded to the nearest value
of that precision, and halfway cases go to the even neighbour.
-/

namespace Chip8.Number

/-- The power `2 ^ k`. A small one is made by a machine shift, which is many times faster. -/
def pow2 (k : Nat) : Nat :=
  if k < 63 then ((1 : UInt64) <<< UInt64.ofNat k).toNat else Nat.pow 2 k

theorem pow2_eq (k : Nat) : pow2 k = Nat.pow 2 k := by
  unfold pow2
  split
  · next h =>
    have hk : k % 2 ^ 64 % 64 = k := by omega
    have hlt : 2 ^ k < 2 ^ 64 := Nat.pow_lt_pow_right (by decide) (by omega)
    rw [UInt64.toNat_shiftLeft, UInt64.toNat_ofNat', hk, UInt64.toNat_one, Nat.one_shiftLeft,
      Nat.mod_eq_of_lt hlt, Nat.pow_eq]
  · rfl

/-- The integer nearest to `num / den`; of two at the same distance, the even one. -/
def divNearest (num den : Nat) : Nat :=
  let q := num / den
  let r := num % den
  if 2 * r < den then q
  else if den < 2 * r then q + 1
  else q + q % 2

/-- How many low bits a value near `q` has to drop to fit into `precision` bits. -/
def excess (precision q : Nat) : Nat := q.log2 + 1 - precision

/-- The value of at most `precision` significant bits nearest to `num / den`. -/
def nearest (precision num den : Nat) : Nat :=
  let k := excess precision (num / den)
  divNearest num (den * pow2 k) * pow2 k

end Chip8.Number
