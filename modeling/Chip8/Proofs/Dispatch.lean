import Mathlib.Algebra.Group.Nat.Defs
import Mathlib.Data.List.Basic
import Mathlib.Data.List.Induction
import Chip8.Table

/-!
# The dispatch table is a linear scan

A pattern speaks about each nibble of a word on its own, so everything here is said nibble by
nibble. The table then agrees with a scan of all definitions, whatever their order.
-/

namespace Chip8

/-! ## Nibbles of a word -/

theorem Nibble.and_zero (d : Nibble) : d &&& 0 = 0 := by
  revert d; decide

theorem Nibble.and_fifteen (d : Nibble) : d &&& 15 = d := by
  revert d; decide

namespace Word

/-- Nibble number `i`, counted from the top as in a pattern. -/
def nibble (w : Word) (i : Nat) : Nibble := ⟨w.toNat / 16 ^ (3 - i) % 16, by omega⟩

theorem family_eq_nibble (w : Word) : w.family = w.nibble 0 := rfl
theorem x_eq_nibble (w : Word) : w.x = w.nibble 1 := rfl
theorem y_eq_nibble (w : Word) : w.y = w.nibble 2 := rfl
theorem n_eq_nibble (w : Word) : w.n = w.nibble 3 := by simp [n, nibble]

theorem eq_iff_nibbles (v w : Word) : v = w ↔ ∀ i < 4, v.nibble i = w.nibble i := by
  constructor
  · rintro rfl i _
    rfl
  · intro h
    have h0 := h 0 (by omega)
    have h1 := h 1 (by omega)
    have h2 := h 2 (by omega)
    have h3 := h 3 (by omega)
    simp only [nibble, Fin.mk.injEq] at h0 h1 h2 h3
    have := v.toNat_lt
    have := w.toNat_lt
    apply UInt16.toNat_inj.mp
    omega

theorem nibble_and (v w : Word) (i : Nat) : (v &&& w).nibble i = v.nibble i &&& w.nibble i := by
  apply Fin.eq_of_val_eq
  have hpow : (16 : Nat) ^ (3 - i) = 2 ^ (4 * (3 - i)) := by rw [Nat.pow_mul]
  simp only [nibble, UInt16.toNat_and, Fin.and_val, hpow, ← Nat.shiftRight_eq_div_pow,
    Nat.shiftRight_and_distrib]
  rw [show (16 : Nat) = 2 ^ 4 from rfl, Nat.and_mod_two_pow]

theorem and_top_eq_iff (w : Word) : w &&& 0xF000 = 0xF000 ↔ w.nibble 0 = 15 := by
  rw [eq_iff_nibbles]
  constructor
  · intro h
    have h0 := h 0 (by omega)
    rwa [nibble_and, show nibble 0xF000 0 = 15 by decide, Nibble.and_fifteen] at h0
  · intro h i hi
    rw [nibble_and]
    obtain rfl | rfl | rfl | rfl : i = 0 ∨ i = 1 ∨ i = 2 ∨ i = 3 := by omega
    · rw [h]
      decide
    -- The other nibbles of the mask are empty.
    all_goals exact Nibble.and_zero _

end Word

/-! ## Patterns -/

namespace Pattern

theorem toNat_assemble (f : Nat → UInt16) (h : ∀ i, (f i).toNat < 16) :
    (assemble f).toNat =
      4096 * (f 0).toNat + (256 * (f 1).toNat + (16 * (f 2).toNat + (f 3).toNat)) := by
  have h0 := h 0
  have h1 := h 1
  have h2 := h 2
  have h3 := h 3
  have e0 : (f 0 <<< 12).toNat = 2 ^ 12 * (f 0).toNat := by simp [Nat.shiftLeft_eq]; omega
  have e1 : (f 1 <<< 8).toNat = 2 ^ 8 * (f 1).toNat := by simp [Nat.shiftLeft_eq]; omega
  have e2 : (f 2 <<< 4).toNat = 2 ^ 4 * (f 2).toNat := by simp [Nat.shiftLeft_eq]; omega
  simp only [assemble, UInt16.toNat_or, e0, e1, e2]
  -- From the right, each part lies below the nibble that it joins.
  rw [Nat.or_assoc, Nat.or_assoc]
  rw [← Nat.two_pow_add_eq_or_of_lt (i := 4) h3, ← Nat.two_pow_add_eq_or_of_lt (i := 8) (by omega),
    ← Nat.two_pow_add_eq_or_of_lt (i := 12) (by omega)]

theorem nibble_assemble (f : Nat → UInt16) (h : ∀ i, (f i).toNat < 16) (i : Nat) (hi : i < 4) :
    ((assemble f).nibble i).val = (f i).toNat := by
  have h0 := h 0
  have h1 := h 1
  have h2 := h 2
  have h3 := h 3
  simp only [Word.nibble, toNat_assemble f h]
  obtain rfl | rfl | rfl | rfl : i = 0 ∨ i = 1 ∨ i = 2 ∨ i = 3 := by omega
  all_goals omega

theorem nibble_mask (pattern : String) (i : Nat) (hi : i < 4) :
    (mask pattern).nibble i = if (literal? pattern i).isSome then 15 else 0 := by
  apply Fin.eq_of_val_eq
  rw [mask, nibble_assemble _ _ i hi]
  · split <;> rfl
  · intro j
    split <;> decide

theorem nibble_digits (pattern : String) (i : Nat) (hi : i < 4) :
    (digits pattern).nibble i = (literal? pattern i).getD 0 := by
  apply Fin.eq_of_val_eq
  rw [digits, nibble_assemble _ _ i hi]
  · cases literal? pattern i with
    | none => rfl
    | some d => simp; omega
  · intro j
    cases literal? pattern j with
    | none => decide
    | some d => simp; omega

end Pattern

/-! ## Definitions -/

namespace Definition

/-- A definition responds exactly if each digit of its pattern stands in the word. -/
theorem respondsTo_iff (d : Definition) (w : Word) :
    d.respondsTo w = true ↔
      ∀ i < 4, ∀ digit ∈ Pattern.literal? d.pattern i, w.nibble i = digit := by
  rw [respondsTo, beq_iff_eq, Word.eq_iff_nibbles]
  apply forall_congr'
  intro i
  apply imp_congr_right
  intro hi
  rw [Word.nibble_and, d.mask_eq, d.digits_eq, Pattern.nibble_mask _ _ hi,
    Pattern.nibble_digits _ _ hi]
  cases Pattern.literal? d.pattern i with
  | none => simp [Nibble.and_zero]
  | some digit => simp [Nibble.and_fifteen]

theorem family?_eq (d : Definition) : d.family? = Pattern.literal? d.pattern 0 := by
  have hmask : d.mask.nibble 0 = 15 ↔ (Pattern.literal? d.pattern 0).isSome := by
    rw [d.mask_eq, Pattern.nibble_mask _ _ (by omega)]
    split <;> simp_all
  have hdigits : d.digits.family = (Pattern.literal? d.pattern 0).getD 0 := by
    rw [d.digits_eq, Word.family_eq_nibble, Pattern.nibble_digits _ _ (by omega)]
  simp only [family?, beq_iff_eq, Word.and_top_eq_iff, hmask, hdigits]
  cases Pattern.literal? d.pattern 0 with
  | none => rfl
  | some digit => rfl

theorem admits_of_respondsTo (d : Definition) (w : Word) (h : d.respondsTo w = true) :
    d.admits w.family = true := by
  rw [respondsTo_iff] at h
  rw [admits, family?_eq]
  cases hd : Pattern.literal? d.pattern 0 with
  | none => rfl
  | some digit =>
    have hfamily := h 0 (by omega) digit hd
    simp [Word.family_eq_nibble, hfamily]

end Definition

/-! ## The table

Definitions are registered one after the other, so the inductions add one at the end.
-/

namespace Table

theorem indices_concat (ds : List Definition) (d : Definition) (family : Nibble) :
    indices (ds ++ [d]) family =
      indices ds family ++ if d.admits family then [ds.length] else [] := by
  rw [indices, List.zipIdx_append, List.filterMap_append, ← indices]
  split <;> simp [*]

theorem indices_lt (ds : List Definition) (family : Nibble) (i : Nat)
    (hi : i ∈ indices ds family) : i < ds.length := by
  induction ds using List.reverseRecOn with
  | nil => simp [indices] at hi
  | append_singleton ds d ih =>
    rw [indices_concat, List.mem_append] at hi
    rw [List.length_append, List.length_singleton]
    rcases hi with hi | hi
    · have := ih hi
      omega
    · split at hi <;> simp_all

theorem families_ofList (ds : List Definition) (family : Nibble) :
    (ofList ds).families.get family = indices ds family := by
  have h : (ofList ds).families[family.val] = indices ds family := by simp [ofList]
  exact h

/-- One more definition answers the words that none before it answers. -/
theorem lookup_concat (ds : List Definition) (d : Definition) (w : Word) :
    (ofList (ds ++ [d])).lookup w =
      ((ofList ds).lookup w).or (if d.respondsTo w then some d else none) := by
  simp only [lookup, families_ofList, indices_concat, List.findSome?_append]
  congr 1
  · -- The old indices still lead to the old definitions.
    rw [← List.head?_filterMap, ← List.head?_filterMap]
    congr 1
    apply List.filterMap_congr
    intro i hi
    have := indices_lt ds w.family i hi
    simp [ofList, List.getElem?_append_left this]
  · -- The new one is on the word's list if it responds at all.
    by_cases hr : d.respondsTo w = true
    · simp [ofList, d.admits_of_respondsTo w hr, hr]
    · split <;> simp [ofList, hr]

theorem lookup_ofList (ds : List Definition) (w : Word) :
    (ofList ds).lookup w = ds.find? (·.respondsTo w) := by
  induction ds using List.reverseRecOn with
  | nil =>
    rw [lookup, families_ofList]
    rfl
  | append_singleton ds d ih => rw [lookup_concat, ih, List.find?_append, List.find?_singleton]

/-- **First responder.** A lookup finds a definition exactly if it responds and none registered
before it does, and nothing exactly if none responds. No index of a family list is out of range. -/
theorem lookup_first_responder (ds : List Definition) (w : Word) :
    (∀ d, (ofList ds).lookup w = some d ↔
      ∃ earlier later, ds = earlier ++ d :: later ∧ d.respondsTo w = true ∧
        ∀ e ∈ earlier, e.respondsTo w = false) ∧
    ((ofList ds).lookup w = none ↔ ∀ d ∈ ds, d.respondsTo w = false) ∧
    ∀ family : Nibble, ∀ i ∈ (ofList ds).families.get family, i < (ofList ds).definitions.size := by
  refine ⟨?_, ?_, ?_⟩
  · intro d
    rw [lookup_ofList, List.find?_eq_some_iff_append]
    constructor
    · rintro ⟨hr, earlier, later, hds, hno⟩
      exact ⟨earlier, later, hds, hr, fun e he => by simpa using hno e he⟩
    · rintro ⟨earlier, later, hds, hr, hno⟩
      exact ⟨hr, earlier, later, hds, fun e he => by simpa using hno e he⟩
  · rw [lookup_ofList, List.find?_eq_none]
    simp
  · intro family i hi
    rw [families_ofList] at hi
    simpa [ofList] using indices_lt ds family i hi

/-- An open first character comes before a later definition of the word's own family. -/
theorem lookup_first_responder_open :
    (ofList [.ofPattern "1NNN" .jump "", .ofPattern "XNN4" .draw "",
      .ofPattern "2NNN" .call ""]).lookup 0x2004 = some (.ofPattern "XNN4" .draw "") := by
  apply ((lookup_first_responder _ _).1 _).mpr
  exact ⟨[.ofPattern "1NNN" .jump ""], [.ofPattern "2NNN" .call ""], rfl, by decide, by decide⟩

end Table

end Chip8
