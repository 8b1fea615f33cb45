import Chip8.Number.Rounding

/-!
# Single-precision numbers

Rates and frame times are IEEE single-precision numbers. A finite one is a sign, a significand and
an exponent over units of 2⁻¹⁴⁹, the smallest positive value. Sums and quotients are exact and then
rounded to 24 significant bits, so the significand stays below 2²⁴, and it only falls below 2²³ where
the exponent is zero.
-/

namespace Chip8.Number

inductive Single where
  | nan
  | infinite (negative : Bool)
  /-- The number `significand · 2 ^ exponent` units, with a sign. -/
  | finite (negative : Bool) (significand exponent : Nat)
  deriving DecidableEq, Repr

namespace Single

/-- One is this many units. -/
def one : Nat := pow2 149

/-- The exponent of the largest finite numbers. -/
def maxExponent : Nat := 253

/-! ## Bits -/

def ofBits (bits : UInt32) : Single :=
  let b := bits.toNat
  let negative := b / pow2 31 == 1
  let exponent := b / pow2 23 % pow2 8
  let fraction := b % pow2 23
  if exponent = 255 then
    if fraction = 0 then infinite negative else nan
  else if exponent = 0 then finite negative fraction 0
  else finite negative (pow2 23 + fraction) (exponent - 1)

def toBits : Single → UInt32
  | nan => 0x7FC00000
  | infinite negative => signBit negative ||| 0x7F800000
  | finite negative significand exponent =>
    -- A significand of 24 bits carries its leading one into the exponent field.
    signBit negative ||| UInt32.ofNat (exponent * pow2 23 + significand)
where
  signBit (negative : Bool) : UInt32 := if negative then 0x80000000 else 0

/-! ## Rounding -/

/-- A rounded significand with its exponent. Rounding up may have given it a 25th bit, and the
exponent may be too large to be finite. -/
def pack (negative : Bool) (significand exponent : Nat) : Single :=
  if significand = pow2 24 then
    if exponent < maxExponent then finite negative (pow2 23) (exponent + 1) else infinite negative
  else
    if exponent ≤ maxExponent then finite negative significand exponent else infinite negative

/-- The single nearest to `num / den` units. -/
def ofUnits (negative : Bool) (num den : Nat) : Single :=
  let k := excess 24 (num / den)
  pack negative (divNearest num (den * pow2 k)) k

/-- The single nearest to `n · 2 ^ exponent` units, for a positive `n`. -/
def ofScaled (negative : Bool) (n exponent : Nat) : Single :=
  let size := n.log2 + 1
  if 24 < size then
    let k := size - 24
    pack negative (divNearest n (pow2 k)) (exponent + k)
  else
    let k := min exponent (24 - size)
    pack negative (n * pow2 k) (exponent - k)

/-! ## Arithmetic -/

def neg : Single → Single
  | nan => nan
  | infinite s => infinite !s
  | finite s u i => finite (!s) u i

def add : Single → Single → Single
  | nan, _ | _, nan => nan
  | infinite s, infinite t => if s = t then infinite s else nan
  | infinite s, finite _ _ _ | finite _ _ _, infinite s => infinite s
  | finite s u i, finite t v j =>
    -- Both counted in the smaller of the two exponents.
    let e := min i j
    let a := u * pow2 (i - e)
    let b := v * pow2 (j - e)
    if s = t then
      if a + b = 0 then finite s 0 0 else ofScaled s (a + b) e
    else if a = b then finite false 0 0
    else if b < a then ofScaled s (a - b) e
    else ofScaled t (b - a) e

def sub (a b : Single) : Single := add a (neg b)

/-- One divided by the number. -/
def inverse : Single → Single
  | nan => nan
  | infinite s => finite s 0 0
  | finite s 0 _ => infinite s
  | finite s u i => ofUnits s (one * one) (u * pow2 i)

/-- Whether `a` is at least `b`. Nothing compares with `nan`. -/
def ge : (a b : Single) → Bool
  | nan, _ | _, nan => false
  | infinite false, _ => true
  | infinite true, b => b = infinite true
  | finite _ _ _, infinite t => t
  | finite s u i, finite t v j =>
    let e := min i j
    let a := u * pow2 (i - e)
    let b := v * pow2 (j - e)
    match s, t with
    | false, false => b ≤ a
    | true, true => a ≤ b
    | false, true => true
    | true, false => a = 0 ∧ b = 0

/-- The smaller number; the other one if one is `nan`. -/
def min : Single → Single → Single
  | nan, b => b
  | a, nan => a
  | a, b => if ge a b then b else a

def zero : Single := finite false 0 0

/-- Finite and greater than zero. -/
def isPositive : Single → Bool
  | finite false significand _ => 0 < significand
  | _ => false

end Single

end Chip8.Number
