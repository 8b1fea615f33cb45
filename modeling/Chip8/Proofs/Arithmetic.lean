import Mathlib.Data.Nat.Bitwise
import Chip8.Proofs.Effects

/-!
# Arithmetic

What the 8XYN family computes, as equations between numbers. Both operands are read before anything
is written. Sums and differences write VF last and shifts write VX last, and for X = F the last
write is what stays.
-/

namespace Chip8

/-! ## Bytes and their carries -/

theorem toNat_add_carry (a b : UInt8) :
    256 * (decide (256 ≤ a.toNat + b.toNat)).toNat + (a + b).toNat = a.toNat + b.toNat := by
  have ha := a.toNat_lt
  have hb := b.toNat_lt
  rw [UInt8.toNat_add]
  by_cases h : 256 ≤ a.toNat + b.toNat <;> simp [h] <;> omega

theorem toNat_sub_borrow (a b : UInt8) :
    (a - b).toNat + b.toNat = a.toNat + 256 * (decide (a < b)).toNat := by
  have ha := a.toNat_lt
  have hb := b.toNat_lt
  rw [UInt8.toNat_sub]
  by_cases h : a < b <;> simp [h] <;> rw [UInt8.lt_iff_toNat_lt] at h <;> omega

theorem toNat_sub_eq_emod (a b : UInt8) :
    ((a - b).toNat : Int) = (a.toNat - b.toNat : Int) % 256 := by
  have hb := b.toNat_lt
  rw [UInt8.toNat_sub]
  omega

theorem and_mask_ne_zero (b mask : UInt8) (i : Nat) (h : mask.toNat = 2 ^ i) :
    (b &&& mask != 0) = b.toNat.testBit i := by
  rw [Bool.eq_iff_iff, bne_iff_ne, Ne, ← UInt8.toNat_inj, UInt8.toNat_and, h, Nat.and_two_pow]
  cases b.toNat.testBit i <;> simp

theorem toNat_shiftRight_one (b : UInt8) : (b >>> 1).toNat = b.toNat / 2 := by
  simp [UInt8.toNat_shiftRight, Nat.shiftRight_eq_div_pow]

theorem toNat_shiftLeft_one (b : UInt8) : (b <<< 1).toNat = 2 * b.toNat % 256 := by
  simp [UInt8.toNat_shiftLeft, Nat.shiftLeft_eq, Nat.mul_comm]

theorem toNat_shiftRight_bit (b : UInt8) :
    2 * (b >>> 1).toNat + (b &&& 0x01 != 0).toNat = b.toNat := by
  rw [and_mask_ne_zero b 0x01 0 rfl, Nat.toNat_testBit, toNat_shiftRight_one]
  omega

theorem toNat_shiftLeft_bit (b : UInt8) :
    256 * (b &&& 0x80 != 0).toNat + (b <<< 1).toNat = 2 * b.toNat := by
  have hb := b.toNat_lt
  rw [and_mask_ne_zero b 0x80 7 rfl, Nat.toNat_testBit, toNat_shiftLeft_one]
  omega

/-! ## Registers -/

namespace Registers

@[simp]
theorem get_setFlag (v : Registers) (x : Nibble) (raised : Bool) (h : x ≠ 15) :
    (v.setFlag raised).get x = v.get x :=
  v.get_set_of_ne 15 x _ h

@[simp]
theorem flag_set (v : Registers) (x : Nibble) (b : UInt8) (h : x ≠ 15) :
    (v.set x b).flag = v.flag :=
  v.get_set_of_ne x 15 b (Ne.symm h)

@[simp]
theorem toNat_flag_setFlag (v : Registers) (raised : Bool) :
    (v.setFlag raised).flag.toNat = raised.toNat := by
  unfold flag setFlag
  rw [get_set, if_pos rfl]
  cases raised <;> rfl

end Registers

namespace Arithmetic

/-- What VX and VF are after an operation on `a` and `b`, when they are two registers. -/
def Balances (a b vx vf : Nat) : Arithmetic → Prop
  | copy => vx = b
  | or => vx = a ||| b
  | and => vx = a &&& b
  | xor => vx = a ^^^ b
  | add => 256 * vf + vx = a + b
  | sub => vx + b = a + 256 * vf
  | subFrom => (vx : Int) = (b - a : Int) % 256 ∧ (vf = 1 ↔ a < b)
  | shiftRight => 2 * vx + vf = b
  | shiftLeft => 256 * vf + vx = 2 * b

/-- What stays in VF after an operation on `a` and `b` that has VF for its VX. -/
def Stays (a b vf : Nat) : Arithmetic → Prop
  | copy => vf = b
  | or => vf = a ||| b
  | and => vf = a &&& b
  | xor => vf = a ^^^ b
  | add => vf = if 256 ≤ a + b then 1 else 0
  | sub => vf = if a < b then 1 else 0
  | subFrom => vf = if a < b then 1 else 0
  | shiftRight => vf = b / 2
  | shiftLeft => vf = 2 * b % 256

end Arithmetic

namespace Machine

theorem arithmetic_balances (v : Registers) (x y : Nibble) (op : Arithmetic) (hx : x ≠ 15) :
    op.Balances (v.get x).toNat (v.get y).toNat ((arithmetic v x y op).get x).toNat
      (arithmetic v x y op).flag.toNat := by
  unfold Arithmetic.Balances arithmetic
  cases op
  case copy | or | and | xor => simp [Registers.get_set]
  case add => simpa [hx, Registers.get_set] using toNat_add_carry (v.get x) (v.get y)
  case sub => simpa [hx, Registers.get_set] using toNat_sub_borrow (v.get x) (v.get y)
  case subFrom =>
    have hdiff := toNat_sub_eq_emod (v.get y) (v.get x)
    simpa [hx, Registers.get_set, UInt8.lt_iff_toNat_lt] using hdiff
  case shiftRight => simpa [hx, Registers.get_set] using toNat_shiftRight_bit (v.get y)
  case shiftLeft => simpa [hx, Registers.get_set] using toNat_shiftLeft_bit (v.get y)

theorem arithmetic_flag_le (v : Registers) (x y : Nibble) (op : Arithmetic) (hx : x ≠ 15)
    (hop : op.flags = true) : (arithmetic v x y op).flag.toNat ≤ 1 := by
  cases op <;> simp [Arithmetic.flags] at hop <;> simp [arithmetic, hx, Bool.toNat_le]

theorem arithmetic_stays (v : Registers) (y : Nibble) (op : Arithmetic) :
    op.Stays (v.get 15).toNat (v.get y).toNat (arithmetic v 15 y op).flag.toNat := by
  unfold Arithmetic.Stays arithmetic
  cases op
  case copy | or | and | xor => simp [Registers.flag, Registers.get_set]
  case add | sub | subFrom =>
    simp only [Registers.toNat_flag_setFlag]
    split_ifs with h <;> simp [UInt8.lt_iff_toNat_lt, h]
  case shiftRight =>
    rw [Registers.flag, Registers.get_set, if_pos rfl]
    exact toNat_shiftRight_one _
  case shiftLeft =>
    rw [Registers.flag, Registers.get_set, if_pos rfl]
    exact toNat_shiftLeft_one _

variable {κ : Type} [Keypad κ]

theorem execute_arithmetic (m : Machine κ) (w : Word) (op : Arithmetic) (hf : w.family = 8)
    (hn : w.n = op.selector) :
    m.execute w =
      ({ m with registers := arithmetic m.registers w.x w.y op }.advance, .proceed) :=
  m.execute_of_covers w (.arithmetic op) ⟨hf, hn⟩

/-- **Arithmetic.** An 8XYN word balances VX and VF against the old VX and VY. Where X is F one of
the two results stays in VF, and no other register changes. -/
theorem arithmetic_word_balances (m : Machine κ) (w : Word) (op : Arithmetic) (hf : w.family = 8)
    (hn : w.n = op.selector) :
    let v := m.registers
    let v' := (m.execute w).1.registers
    (m.execute w).2 = .proceed ∧
    (w.x ≠ 15 → op.Balances (v.get w.x).toNat (v.get w.y).toNat (v'.get w.x).toNat v'.flag.toNat ∧
      (op.flags = true → v'.flag.toNat ≤ 1)) ∧
    (w.x = 15 → op.Stays (v.get w.x).toNat (v.get w.y).toNat v'.flag.toNat) ∧
    ∀ r, r ≠ w.x → (op.flags = true → r ≠ 15) → v'.get r = v.get r := by
  intro v v'
  have hexecute := m.execute_arithmetic w op hf hn
  have hv' : v' = arithmetic v w.x w.y op := congrArg (·.1.registers) hexecute
  refine ⟨congrArg (·.2) hexecute, ?_, ?_, ?_⟩
  · intro hx
    rw [hv']
    exact ⟨arithmetic_balances v w.x w.y op hx, arithmetic_flag_le v w.x w.y op hx⟩
  · intro hx
    rw [hv', hx]
    exact arithmetic_stays v w.y op
  · intro r hr hflag
    rw [hv']
    exact arithmetic_get v w.x w.y r op hr hflag

/-- The largest sum, and a shift whose own result replaces the flag. -/
theorem arithmetic_word_balances_all_ones :
    let m : Machine Script := { bare [] with registers := ⟨Vector.replicate 16 0xFF⟩ }
    256 * (m.execute 0x8014).1.registers.flag.toNat +
      ((m.execute 0x8014).1.registers.get 0).toNat = 510 ∧
    (m.execute 0x8F16).1.registers.flag.toNat = 127 ∧
    (m.execute 0x8F16).1.registers.get 1 = 0xFF := by
  intro m
  obtain ⟨-, hsum, -, -⟩ := arithmetic_word_balances m 0x8014 .add (by decide) (by decide)
  obtain ⟨-, -, hshift, hkept⟩ :=
    arithmetic_word_balances m 0x8F16 .shiftRight (by decide) (by decide)
  have hff : ∀ r, m.registers.get r = 0xFF := by decide
  have hvf : (m.execute 0x8F16).1.registers.flag.toNat = (m.registers.get 1).toNat / 2 :=
    hshift (by decide)
  refine ⟨(hsum (by decide)).1, ?_, ?_⟩
  · rw [hvf, hff]
    rfl
  · rw [hkept 1 (by decide) (by decide), hff]

end Machine

end Chip8
