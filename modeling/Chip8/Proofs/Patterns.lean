import Mathlib.Tactic.SplitIfs
import Chip8.Proofs.Dispatch

/-!
# Patterns, character by character

A pattern is compiled to a mask and to the digits under it. Read back, they say what the characters
say: each hexadecimal digit among the first four has to stand in the word, and nothing else has to.
-/

namespace Chip8

/-! ## Hexadecimal digits -/

namespace Nibble

/-- The character is the hexadecimal digit of the nibble, in either case. -/
def IsDigit (d : Nibble) (c : Char) : Prop :=
  "0123456789ABCDEF".toList[d.val]? = some c ∨ "0123456789abcdef".toList[d.val]? = some c

instance decidableIsDigit (d : Nibble) (c : Char) : Decidable (d.IsDigit c) :=
  inferInstanceAs (Decidable (_ ∨ _))

theorem exists_ofNat_add {low high c : Char} (h : low ≤ c ∧ c ≤ high) :
    ∃ k < high.toNat + 1 - low.toNat, c = Char.ofNat (low.toNat + k) := by
  have hlow : low.toNat ≤ c.toNat := h.1
  have hhigh : c.toNat ≤ high.toNat := h.2
  refine ⟨c.toNat - low.toNat, by omega, ?_⟩
  rw [Nat.add_sub_cancel' hlow, Char.ofNat_toNat]

theorem isDigit_of_ofDigit? {c : Char} {d : Nibble} (h : ofDigit? c = some d) : d.IsDigit c := by
  unfold ofDigit? at h
  split_ifs at h
  -- Each of the three ranges has few characters.
  all_goals
    cases h
    obtain ⟨k, hk, rfl⟩ := exists_ofNat_add ‹_ ≤ c ∧ c ≤ _›
    revert k
    decide

theorem ofDigit?_of_isDigit {c : Char} {d : Nibble} (h : d.IsDigit c) : ofDigit? c = some d := by
  have hupper : ∀ d : Nibble, "0123456789ABCDEF".toList[d.val]?.bind ofDigit? = some d := by decide
  have hlower : ∀ d : Nibble, "0123456789abcdef".toList[d.val]?.bind ofDigit? = some d := by decide
  rcases h with h | h
  · rw [← hupper d, h, Option.bind_some]
  · rw [← hlower d, h, Option.bind_some]

end Nibble

/-! ## Characters of a pattern -/

namespace Pattern

/-- The pattern has this digit as its character number `i`. -/
def AsksFor (pattern : String) (i : Nat) (digit : Nibble) : Prop :=
  ∃ c, pattern.toList[i]? = some c ∧ digit.IsDigit c

theorem literal?_eq_some_iff (pattern : String) (i : Nat) (digit : Nibble) :
    literal? pattern i = some digit ↔ AsksFor pattern i digit := by
  unfold literal? AsksFor
  rw [Option.bind_eq_some_iff]
  refine exists_congr fun c => and_congr_right fun _ => ?_
  exact ⟨Nibble.isDigit_of_ofDigit?, Nibble.ofDigit?_of_isDigit⟩

theorem nibble_mask_eq (pattern : String) (i : Nat) (hi : i < 4) :
    (mask pattern).nibble i = 15 ∨ (mask pattern).nibble i = 0 := by
  rw [nibble_mask pattern i hi]
  split_ifs <;> simp

theorem digits_and_mask (pattern : String) : digits pattern &&& mask pattern = digits pattern := by
  rw [Word.eq_iff_nibbles]
  intro i hi
  rw [Word.nibble_and, nibble_digits pattern i hi, nibble_mask pattern i hi]
  cases literal? pattern i with
  | none => exact Nibble.and_zero _
  | some digit => exact Nibble.and_fifteen _

end Pattern

theorem Word.getElem?_fields (w : Word) (i : Nat) (hi : i < 4) :
    [w.family, w.x, w.y, w.n][i]? = some (w.nibble i) := by
  obtain rfl | rfl | rfl | rfl : i = 0 ∨ i = 1 ∨ i = 2 ∨ i = 3 := by omega
  · rfl
  · rfl
  · rfl
  · rw [← w.n_eq_nibble]
    rfl

namespace Definition

/-- A definition responds exactly if the digits of its pattern are those of the word. -/
theorem respondsTo_iff_asksFor (d : Definition) (w : Word) :
    d.respondsTo w = true ↔
      ∀ i < 4, ∀ digit, Pattern.AsksFor d.pattern i digit → w.nibble i = digit := by
  rw [d.respondsTo_iff w]
  simp only [Option.mem_def, Pattern.literal?_eq_some_iff]

/-- **Patterns.** A definition responds to a word exactly if each of the pattern's first four
characters that is a hexadecimal digit stands at its place among the word's nibbles. Its mask covers
whole nibbles, and it has no digit outside the mask. -/
theorem pattern_says_digits (pattern : String) (operation : Operation) (text : String) (w : Word) :
    let d := ofPattern pattern operation text
    (d.respondsTo w = true ↔ ∀ i < 4, ∀ c ∈ pattern.toList[i]?, ∀ digit : Nibble,
      digit.IsDigit c → [w.family, w.x, w.y, w.n][i]? = some digit) ∧
    (∀ i < 4, d.mask.nibble i = 15 ∨ d.mask.nibble i = 0) ∧
    d.digits &&& d.mask = d.digits := by
  intro d
  refine ⟨?_, Pattern.nibble_mask_eq pattern, Pattern.digits_and_mask pattern⟩
  rw [d.respondsTo_iff_asksFor]
  constructor
  · intro h i hi c hc digit hdigit
    rw [w.getElem?_fields i hi, h i hi digit ⟨c, hc, hdigit⟩]
  · rintro h i hi digit ⟨c, hc, hdigit⟩
    have hfield := h i hi c hc digit hdigit
    rw [w.getElem?_fields i hi] at hfield
    exact Option.some.inj hfield

/-- Digits of either case, an open place whose character takes two bytes, and a digit too far on. -/
theorem pattern_says_digits_mixed :
    (ofPattern "éAf47" .draw "").respondsTo 0x1AF4 = true ∧
    (ofPattern "éAf47" .draw "").respondsTo 0x1AF5 = false := by
  constructor
  · apply (pattern_says_digits "éAf47" .draw "" 0x1AF4).1.mpr
    intro i hi c hc
    obtain rfl | rfl | rfl | rfl : i = 0 ∨ i = 1 ∨ i = 2 ∨ i = 3 := by omega
    all_goals
      cases hc
      decide
  · rw [Bool.eq_false_iff, ne_eq, (pattern_says_digits "éAf47" .draw "" 0x1AF5).1]
    intro h
    have hlast := h 3 (by decide) '4' (by decide) 4 (by decide)
    exact absurd hlast (by decide)

end Definition

end Chip8
