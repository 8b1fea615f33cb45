import Mathlib.Tactic.SplitIfs
import Chip8.Proofs.Dispatch

/-!
# The instruction set, read off the nibbles

The standard table is a list of patterns in an order that matters. Here the same set is written
down without patterns and without an order, and the table is shown to agree with it on every word.
-/

namespace Chip8

/-- The last nibble of an 8XYN word. -/
def Arithmetic.selector : Arithmetic → Nibble
  | .copy => 0
  | .or => 1
  | .and => 2
  | .xor => 3
  | .add => 4
  | .sub => 5
  | .shiftRight => 6
  | .subFrom => 7
  | .shiftLeft => 14

def Arithmetic.ofSelector? (n : Nibble) : Option Arithmetic :=
  match n with
  | 0 => some .copy
  | 1 => some .or
  | 2 => some .and
  | 3 => some .xor
  | 4 => some .add
  | 5 => some .sub
  | 6 => some .shiftRight
  | 7 => some .subFrom
  | 14 => some .shiftLeft
  | _ => none

theorem Arithmetic.ofSelector?_eq_some_iff (n : Nibble) (op : Arithmetic) :
    ofSelector? n = some op ↔ n = op.selector := by
  cases op <;> revert n <;> decide

theorem Arithmetic.ofSelector?_eq_none_iff (n : Nibble) :
    ofSelector? n = none ↔ (8 ≤ n ∧ n ≤ 13) ∨ n = 15 := by
  revert n; decide

/-- What the words of one instruction have in common. -/
inductive Shape where
  | family (f : Nibble)
  | last (f n : Nibble)
  | byte (f : Nibble) (b : UInt8)
  | word (v : Word)

def Shape.Holds (w : Word) : Shape → Prop
  | family f => w.family = f
  | last f n => w.family = f ∧ w.n = n
  | byte f b => w.family = f ∧ w.nn = b
  | word v => w = v

def Operation.shape : Operation → Shape
  | native => .family 0
  | clearScreen => .word 0x00E0
  | ret => .word 0x00EE
  | jump => .family 1
  | call => .family 2
  | skipIfByte => .family 3
  | skipUnlessByte => .family 4
  | skipIfSame => .last 5 0
  | setByte => .family 6
  | addByte => .family 7
  | arithmetic op => .last 8 op.selector
  | skipUnlessSame => .last 9 0
  | setIndex => .family 0xA
  | jumpOffset => .family 0xB
  | random => .family 0xC
  | draw => .family 0xD
  | skipIfKey => .byte 0xE 0x9E
  | skipUnlessKey => .byte 0xE 0xA1
  | readDelay => .byte 0xF 0x07
  | awaitKey => .byte 0xF 0x0A
  | setDelay => .byte 0xF 0x15
  | setSound => .byte 0xF 0x18
  | addIndex => .byte 0xF 0x1E
  | glyph => .byte 0xF 0x29
  | decimal => .byte 0xF 0x33
  | storeRegisters => .byte 0xF 0x55
  | loadRegisters => .byte 0xF 0x65

/-- The words that stand for an operation. Host code has what the other two leave of family 0. -/
def Operation.Covers (w : Word) : Operation → Prop
  | native => w.family = 0 ∧ w ≠ 0x00E0 ∧ w ≠ 0x00EE
  | op => op.shape.Holds w

theorem Operation.covers_iff (op : Operation) (w : Word) (h : op ≠ native) :
    op.Covers w ↔ op.shape.Holds w := by
  cases op
  case native => exact absurd rfl h
  all_goals exact Iff.rfl

/-! ## Decoding

No word stands for two operations, because each is decoded to at most one.
-/

namespace Word

def operation? (w : Word) : Option Operation :=
  match w.family with
  | 0 => if w = 0x00E0 then some .clearScreen else if w = 0x00EE then some .ret else some .native
  | 1 => some .jump
  | 2 => some .call
  | 3 => some .skipIfByte
  | 4 => some .skipUnlessByte
  | 5 => if w.n = 0 then some .skipIfSame else none
  | 6 => some .setByte
  | 7 => some .addByte
  | 8 => (Arithmetic.ofSelector? w.n).map .arithmetic
  | 9 => if w.n = 0 then some .skipUnlessSame else none
  | 0xA => some .setIndex
  | 0xB => some .jumpOffset
  | 0xC => some .random
  | 0xD => some .draw
  | 0xE =>
    match w.nn with
    | 0x9E => some .skipIfKey
    | 0xA1 => some .skipUnlessKey
    | _ => none
  -- Family F is all that is left.
  | _ =>
    match w.nn with
    | 0x07 => some .readDelay
    | 0x0A => some .awaitKey
    | 0x15 => some .setDelay
    | 0x18 => some .setSound
    | 0x1E => some .addIndex
    | 0x29 => some .glyph
    | 0x33 => some .decimal
    | 0x55 => some .storeRegisters
    | 0x65 => some .loadRegisters
    | _ => none

theorem covers_of_operation? (w : Word) (op : Operation) (h : w.operation? = some op) :
    op.Covers w := by
  unfold operation? at h
  split at h
  case h_1 hf =>
    split_ifs at h with he0 hee <;> cases h
    · exact he0
    · exact hee
    · exact ⟨hf, he0, hee⟩
  case h_6 hf =>
    obtain ⟨hn, hop⟩ := Option.ite_none_right_eq_some.mp h
    cases hop
    exact ⟨hf, hn⟩
  case h_9 hf =>
    obtain ⟨op, hop, rfl⟩ := Option.map_eq_some_iff.mp h
    exact ⟨hf, (Arithmetic.ofSelector?_eq_some_iff _ _).mp hop⟩
  case h_10 hf =>
    obtain ⟨hn, hop⟩ := Option.ite_none_right_eq_some.mp h
    cases hop
    exact ⟨hf, hn⟩
  case h_15 hf =>
    split at h <;> cases h <;> exact ⟨hf, by assumption⟩
  case h_16 =>
    have hf : w.family = 0xF := by grind
    split at h <;> cases h <;> exact ⟨hf, by assumption⟩
  -- Elsewhere the family alone decides.
  all_goals
    cases h
    assumption

theorem operation?_of_covers (w : Word) (op : Operation) (h : op.Covers w) :
    w.operation? = some op := by
  cases op
  case clearScreen => rw [show w = 0x00E0 from h]; rfl
  case ret => rw [show w = 0x00EE from h]; rfl
  case arithmetic op =>
    obtain ⟨hf, hn⟩ := h
    simp [operation?, hf, (Arithmetic.ofSelector?_eq_some_iff _ _).mpr hn]
  all_goals simp_all [Operation.Covers, Operation.shape, Shape.Holds, operation?]

theorem operation?_eq_some_iff (w : Word) (op : Operation) :
    w.operation? = some op ↔ op.Covers w :=
  ⟨covers_of_operation? w op, operation?_of_covers w op⟩

theorem covers_iff_eq (w : Word) (op op' : Operation) (h : op.Covers w) :
    op'.Covers w ↔ op = op' := by
  rw [← w.operation?_eq_some_iff, w.operation?_of_covers op h, Option.some.injEq]

/-- The words of the instructions that can be carried out. -/
def Supported (w : Word) : Prop := ∃ op : Operation, op ≠ .native ∧ op.Covers w

theorem not_supported_iff (w : Word) :
    ¬ w.Supported ↔ w.operation? = none ∨ w.operation? = some .native := by
  constructor
  · intro hn
    cases hop : w.operation? with
    | none => exact .inl rfl
    | some op =>
      by_cases h : op = .native
      · exact .inr (by rw [h])
      · exact absurd ⟨op, h, w.covers_of_operation? op hop⟩ hn
  · rintro h ⟨op, hne, hc⟩
    rw [w.operation?_of_covers op hc] at h
    simp [hne] at h

/-- The words that are left over, family by family. -/
theorem not_supported_iff_fields (w : Word) :
    ¬ w.Supported ↔
      (w.family = 0 ∧ w ≠ 0x00E0 ∧ w ≠ 0x00EE) ∨
      ((w.family = 5 ∨ w.family = 9) ∧ w.n ≠ 0) ∨
      (w.family = 8 ∧ ((8 ≤ w.n ∧ w.n ≤ 13) ∨ w.n = 15)) ∨
      (w.family = 0xE ∧ w.nn ∉ [0x9E, 0xA1]) ∨
      (w.family = 0xF ∧ w.nn ∉ [0x07, 0x0A, 0x15, 0x18, 0x1E, 0x29, 0x33, 0x55, 0x65]) := by
  rw [not_supported_iff]
  unfold operation?
  split
  case h_1 hf =>
    rw [hf]
    split_ifs <;> simp [*]
  case h_6 hf =>
    rw [hf]
    split_ifs <;> simp [*]
  case h_9 hf =>
    rw [hf, Option.map_eq_none_iff, Arithmetic.ofSelector?_eq_none_iff]
    simp
  case h_10 hf =>
    rw [hf]
    split_ifs <;> simp [*]
  case h_15 hf =>
    rw [hf]
    split <;> simp_all
  case h_16 =>
    have hf : w.family = 0xF := by grind
    rw [hf]
    split <;> simp_all
  all_goals simp [*]

end Word

/-! ## The table -/

theorem Word.eq_iff_fields (v w : Word) :
    v = w ↔ v.family = w.family ∧ v.x = w.x ∧ v.y = w.y ∧ v.n = w.n := by
  have := v.toNat_lt
  have := w.toNat_lt
  rw [← UInt16.toNat_inj]
  simp only [family, x, y, n, Fin.mk.injEq]
  omega

theorem Word.nn_eq_iff (w : Word) (b : UInt8) :
    w.nn = b ↔ w.y = Fin.ofNat 16 (b.toNat / 16) ∧ w.n = Nibble.low b := by
  have := w.toNat_lt
  have := b.toNat_lt
  rw [← UInt8.toNat_inj]
  simp only [nn, UInt16.toNat_toUInt8, y, n, Nibble.low, Fin.ofNat, Fin.mk.injEq]
  omega

/-- The digits that a pattern of this shape asks for. -/
def Shape.literals : Shape → List (Option Nibble)
  | family f => [some f, none, none, none]
  | last f n => [some f, none, none, some n]
  | byte f b => [some f, none, some (Fin.ofNat 16 (b.toNat / 16)), some (Nibble.low b)]
  | word v => [some v.family, some v.x, some v.y, some v.n]

@[simp]
theorem Definition.operation_ofPattern (pattern : String) (op : Operation) (text : String) :
    (ofPattern pattern op text).operation = op := rfl

theorem Definition.respondsTo_iff_fields (d : Definition) (w : Word) {a b c e : Option Nibble}
    (h : (List.range 4).map (Pattern.literal? d.pattern) = [a, b, c, e]) :
    d.respondsTo w = true ↔
      (∀ k ∈ a, w.family = k) ∧ (∀ k ∈ b, w.x = k) ∧ (∀ k ∈ c, w.y = k) ∧ ∀ k ∈ e, w.n = k := by
  cases h
  rw [respondsTo_iff, Word.family_eq_nibble, Word.x_eq_nibble, Word.y_eq_nibble, Word.n_eq_nibble]
  constructor
  · intro h
    exact ⟨h 0 (by omega), h 1 (by omega), h 2 (by omega), h 3 (by omega)⟩
  · rintro ⟨h0, h1, h2, h3⟩ i hi
    obtain rfl | rfl | rfl | rfl : i = 0 ∨ i = 1 ∨ i = 2 ∨ i = 3 := by omega
    · exact h0
    · exact h1
    · exact h2
    · exact h3

theorem Definition.respondsTo_iff_holds (d : Definition) (w : Word) (s : Shape)
    (h : (List.range 4).map (Pattern.literal? d.pattern) = s.literals) :
    d.respondsTo w = true ↔ s.Holds w := by
  cases s with
  | family f =>
    rw [d.respondsTo_iff_fields w h]
    simp [Shape.Holds, eq_comm]
  | last f n =>
    rw [d.respondsTo_iff_fields w h]
    simp [Shape.Holds, eq_comm]
  | byte f b =>
    rw [d.respondsTo_iff_fields w h]
    simp [Shape.Holds, Word.nn_eq_iff]
  | word v =>
    rw [d.respondsTo_iff_fields w h]
    simp [Shape.Holds, Word.eq_iff_fields]

namespace Table

theorem instructionSet_eq : instructionSet = instructionSet.dropLast ++
    [.ofPattern "0NNN" .native "Execute native code - UNSUPPORTED"] := rfl

theorem literals_eq : ∀ d ∈ instructionSet.dropLast,
    (List.range 4).map (Pattern.literal? d.pattern) = d.operation.shape.literals := by
  decide

theorem operation_ne_native : ∀ d ∈ instructionSet.dropLast, d.operation ≠ .native := by
  decide

theorem respondsTo_iff_covers (w : Word) (d : Definition) (hd : d ∈ instructionSet.dropLast) :
    d.respondsTo w = true ↔ d.operation.Covers w := by
  rw [d.operation.covers_iff w (operation_ne_native d hd)]
  exact d.respondsTo_iff_holds w _ (literals_eq d hd)

theorem native_respondsTo_iff (w : Word) (text : String) :
    (Definition.ofPattern "0NNN" .native text).respondsTo w = true ↔ w.family = 0 := by
  have hliterals : (List.range 4).map (Pattern.literal? "0NNN") = (Shape.family 0).literals := by
    decide
  exact Definition.respondsTo_iff_holds _ w (.family 0) hliterals

theorem exists_definition (op : Operation) (h : op ≠ .native) :
    ∃ d ∈ instructionSet.dropLast, d.operation = op := by
  have hmem : op ∈ instructionSet.dropLast.map (·.operation) := by
    cases op
    case native => exact absurd rfl h
    case arithmetic op => cases op <;> decide
    all_goals decide
  exact List.mem_map.mp hmem

theorem standard_lookup (w : Word) : (standard.lookup w).map (·.operation) = w.operation? := by
  rw [standard, lookup_ofList, instructionSet_eq, List.find?_append]
  cases hfind : instructionSet.dropLast.find? (·.respondsTo w) with
  | some d =>
    have hr : d.respondsTo w = true := by simpa using List.find?_some hfind
    have hc := (respondsTo_iff_covers w d (List.mem_of_find?_eq_some hfind)).mp hr
    simp [w.operation?_of_covers _ hc]
  | none =>
    -- Nothing covers the word but host code, whose pattern takes the whole family 0.
    have hno : ∀ op : Operation, op ≠ .native → ¬ op.Covers w := by
      intro op hop hc
      obtain ⟨d, hd, rfl⟩ := exists_definition op hop
      exact List.find?_eq_none.mp hfind d hd ((respondsTo_iff_covers w d hd).mpr hc)
    by_cases hf : w.family = 0
    · have hc : Operation.native.Covers w :=
        ⟨hf, hno .clearScreen (by decide), hno .ret (by decide)⟩
      simp [native_respondsTo_iff, hf, w.operation?_of_covers _ hc]
    · have hnone : w.operation? = none := by
        apply Option.eq_none_iff_forall_ne_some.mpr
        intro op hop
        have hc := w.covers_of_operation? op hop
        by_cases hn : op = .native
        · subst hn
          exact hf hc.1
        · exact hno op hn hc
      simp [native_respondsTo_iff, hf, hnone]

end Table

end Chip8
