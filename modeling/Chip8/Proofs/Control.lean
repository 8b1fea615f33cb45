import Chip8.Proofs.Effects

/-!
# Where a program goes on

Every operation places the program counter itself. Where it is after an operation, and whether a
frame has to be shown first, follows from the machine before it and the key that is down.
-/

namespace Chip8

theorem Word.toNat_nnn (w : Word) : w.nnn.toNat = w.toNat % 4096 := by
  unfold nnn
  rw [UInt16.toNat_and]
  exact Nat.and_two_pow_sub_one_eq_mod w.toNat 12

/-- The target of BNNN lies above memory at most by a byte, so the sum is exact. -/
theorem Word.toNat_nnn_add (w : Word) (b : UInt8) :
    (w.nnn + b.toUInt16).toNat = w.nnn.toNat + b.toNat := by
  have hb := b.toNat_lt
  have hn := w.toNat_nnn
  rw [UInt16.toNat_add, UInt8.toNat_toUInt16]
  exact Nat.mod_eq_of_lt (by omega)

theorem Nibble.toByte_eq_iff (d : Nibble) (b : UInt8) : d.toByte = b ↔ d.val = b.toNat := by
  have hd := d.isLt
  rw [← UInt8.toNat_inj, toByte, UInt8.toNat_ofNat', Nat.mod_eq_of_lt (by omega)]

/-! ## Skips -/

/-- The key that is down is the one that VX holds. -/
def Registers.Names (v : Registers) (x : Nibble) (key : Option Nibble) : Prop :=
  ∃ k ∈ key, k.val = (v.get x).toNat

/-- The words that skip the next instruction, with these registers and this key. -/
def Word.Skips (w : Word) (v : Registers) (key : Option Nibble) : Prop :=
  w.family = 3 ∧ v.get w.x = w.nn ∨
  w.family = 4 ∧ v.get w.x ≠ w.nn ∨
  w.family = 5 ∧ w.n = 0 ∧ v.get w.x = v.get w.y ∨
  w.family = 9 ∧ w.n = 0 ∧ v.get w.x ≠ v.get w.y ∨
  w.family = 0xE ∧ w.nn = 0x9E ∧ v.Names w.x key ∨
  w.family = 0xE ∧ w.nn = 0xA1 ∧ ¬ v.Names w.x key

/-- Two words that ask the same question and skip on opposite answers. -/
def Word.Opposite (w w' : Word) : Prop :=
  w.x = w'.x ∧
    (w.family = 3 ∧ w'.family = 4 ∧ w.nn = w'.nn ∨
      (w.family = 5 ∧ w.n = 0) ∧ (w'.family = 9 ∧ w'.n = 0) ∧ w.y = w'.y ∨
      (w.family = 0xE ∧ w.nn = 0x9E) ∧ w'.family = 0xE ∧ w'.nn = 0xA1)

/-- FX0A while no key is down. -/
def Word.Awaits (w : Word) (key : Option Nibble) : Prop :=
  w.family = 0xF ∧ w.nn = 0x0A ∧ key = none

namespace Operation

def skips (w : Word) (v : Registers) (key : Option Nibble) : Operation → Bool
  | skipIfByte => v.get w.x == w.nn
  | skipUnlessByte => v.get w.x != w.nn
  | skipIfSame => v.get w.x == v.get w.y
  | skipUnlessSame => v.get w.x != v.get w.y
  | skipIfKey => key.any fun k => k.toByte == v.get w.x
  | skipUnlessKey => !key.any fun k => k.toByte == v.get w.x
  | _ => false

theorem any_key_iff (v : Registers) (x : Nibble) (key : Option Nibble) :
    (key.any fun k => k.toByte == v.get x) = true ↔ v.Names x key := by
  cases key with
  | none => simp [Registers.Names]
  | some k => simp [Registers.Names, Nibble.toByte_eq_iff]

theorem skips_iff (op : Operation) (w : Word) (v : Registers) (key : Option Nibble)
    (hc : op.Covers w) : op.skips w v key = true ↔ w.Skips v key := by
  have hop := fun op' => w.covers_iff_eq op op' hc
  constructor
  · intro h
    unfold skips at h
    split at h
    · exact .inl ⟨hc, by simpa using h⟩
    · exact .inr (.inl ⟨hc, by simpa using h⟩)
    · exact .inr (.inr (.inl ⟨hc.1, hc.2, by simpa using h⟩))
    · exact .inr (.inr (.inr (.inl ⟨hc.1, hc.2, by simpa using h⟩)))
    · exact .inr (.inr (.inr (.inr (.inl ⟨hc.1, hc.2, (any_key_iff v w.x key).mp h⟩))))
    · rw [Bool.not_eq_true', Bool.eq_false_iff, Ne, any_key_iff] at h
      exact .inr (.inr (.inr (.inr (.inr ⟨hc.1, hc.2, h⟩))))
    · cases h
  · rintro (⟨hw, h⟩ | ⟨hw, h⟩ | ⟨hf, hn, h⟩ | ⟨hf, hn, h⟩ | ⟨hf, hn, h⟩ | ⟨hf, hn, h⟩)
    · obtain rfl := (hop .skipIfByte).mp hw
      simpa [skips] using h
    · obtain rfl := (hop .skipUnlessByte).mp hw
      simpa [skips] using h
    · obtain rfl := (hop .skipIfSame).mp ⟨hf, hn⟩
      simpa [skips] using h
    · obtain rfl := (hop .skipUnlessSame).mp ⟨hf, hn⟩
      simpa [skips] using h
    · obtain rfl := (hop .skipIfKey).mp ⟨hf, hn⟩
      exact (any_key_iff v w.x key).mpr h
    · obtain rfl := (hop .skipUnlessKey).mp ⟨hf, hn⟩
      rw [skips, Bool.not_eq_true', Bool.eq_false_iff, Ne, any_key_iff]
      exact h

/-- Whether a frame has to be shown after an operation. -/
def pauses (key : Option Nibble) : Operation → Bool
  | clearScreen | draw => true
  | awaitKey => key.isNone
  | _ => false

theorem pauses_iff (op : Operation) (w : Word) (key : Option Nibble) (hc : op.Covers w) :
    op.pauses key = true ↔ w = 0x00E0 ∨ w.family = 0xD ∨ w.Awaits key := by
  have hop := fun op' => w.covers_iff_eq op op' hc
  constructor
  · intro h
    unfold pauses at h
    split at h
    · exact .inl hc
    · exact .inr (.inl hc)
    · exact .inr (.inr ⟨hc.1, hc.2, Option.isNone_iff_eq_none.mp h⟩)
    · cases h
  · rintro (hw | hw | ⟨hf, hn, rfl⟩)
    · obtain rfl := (hop .clearScreen).mp hw
      rfl
    · obtain rfl := (hop .draw).mp hw
      rfl
    · obtain rfl := (hop .awaitKey).mp ⟨hf, hn⟩
      rfl

end Operation

/-! ## Operations -/

namespace Machine

variable {κ : Type}

/-- Where an operation continues. -/
def destination (m : Machine κ) (w : Word) (key : Option Nibble) (op : Operation) : UInt16 :=
  match op with
  | .jump | .call => w.nnn
  | .jumpOffset => w.nnn + (m.registers.get 0).toUInt16
  | .ret => m.stack.back?.getD 0 + 2
  | .awaitKey => if key.isNone then m.pc else m.pc + 2
  | op => if op.skips w m.registers key then m.pc + 4 else m.pc + 2

theorem destination_of_skips (m : Machine κ) (w : Word) (key : Option Nibble) (op : Operation)
    (h : op.skips w m.registers key = true) : m.destination w key op = m.pc + 4 := by
  cases op
  case skipIfByte | skipUnlessByte | skipIfSame | skipUnlessSame | skipIfKey | skipUnlessKey =>
    exact if_pos h
  all_goals cases h

theorem destination_next (m : Machine κ) (w : Word) (key : Option Nibble) (op : Operation)
    (hjump : op ∉ [.jump, .call, .jumpOffset, .ret]) (hkey : op = .awaitKey → key ≠ none)
    (hskips : ¬ op.skips w m.registers key = true) : m.destination w key op = m.pc + 2 := by
  cases op
  case jump | call | jumpOffset | ret => simp at hjump
  case awaitKey =>
    cases key with
    | none => exact absurd rfl (hkey rfl)
    | some k => rfl
  all_goals simp [destination, hskips]

variable [Keypad κ]

theorem perform_pc (m : Machine κ) (w : Word) (op : Operation)
    (h : (m.perform w op).2.Succeeds) :
    (m.perform w op).1.pc = m.destination w (Keypad.read m.keypad).1 op := by
  cases op
  case native => simp [perform, Outcome.Succeeds] at h
  case ret =>
    obtain ⟨address, hstack, hpc⟩ := m.perform_ret w h
    rw [hpc, destination, hstack, Array.back?_push]
    rfl
  case call | decimal | storeRegisters | loadRegisters =>
    obtain ⟨_, _, hnext⟩ := attempt_succeeds _ _ _ h
    exact congrArg (·.1.pc) hnext
  case awaitKey =>
    simp only [perform, awaitKey, destination]
    split <;> simp_all [assign, advance]
  case setDelay | setSound =>
    simp only [perform] at h ⊢
    split at h
    · rfl
    · simp [Outcome.Succeeds] at h
  all_goals rfl

theorem perform_outcome (m : Machine κ) (w : Word) (op : Operation)
    (h : (m.perform w op).2.Succeeds) :
    (m.perform w op).2 = if op.pauses (Keypad.read m.keypad).1 then .wait else .proceed := by
  cases op
  case native => simp [perform, Outcome.Succeeds] at h
  case ret | call | decimal | storeRegisters | loadRegisters =>
    obtain ⟨_, _, hnext⟩ := attempt_succeeds _ _ _ h
    exact congrArg Prod.snd hnext
  case awaitKey =>
    simp only [perform, awaitKey, Operation.pauses]
    split <;> simp_all
  case setDelay | setSound =>
    simp only [perform] at h ⊢
    split at h
    · rfl
    · simp [Outcome.Succeeds] at h
  all_goals rfl

/-! ## Words -/

/-- Where a word continues, and with which outcome. -/
structure Continues (m m' : Machine κ) (outcome : Outcome) (key : Option Nibble) (w : Word) :
    Prop where
  jump : w.family = 1 ∨ w.family = 2 → m'.pc = w.nnn
  offset : w.family = 0xB → m'.pc.toNat = w.nnn.toNat + (m.registers.get 0).toNat
  ret : w = 0x00EE → ∃ top, m.stack.back? = some top ∧ m'.pc = top + 2
  stay : w.Awaits key → m'.pc = m.pc
  skip : w.Skips m.registers key → m'.pc = m.pc + 4
  next : ¬ (w.family = 1 ∨ w.family = 2 ∨ w.family = 0xB) → w ≠ 0x00EE → ¬ w.Awaits key →
    ¬ w.Skips m.registers key → m'.pc = m.pc + 2
  wait : outcome = .wait ↔ w = 0x00E0 ∨ w.family = 0xD ∨ w.Awaits key
  proceed : outcome = .proceed ↔ ¬ (w = 0x00E0 ∨ w.family = 0xD ∨ w.Awaits key)

theorem continues_perform (m : Machine κ) (w : Word) (op : Operation) (hc : op.Covers w)
    (hok : (m.perform w op).2.Succeeds) :
    m.Continues (m.perform w op).1 (m.perform w op).2 (Keypad.read m.keypad).1 w := by
  have hop := fun op' => w.covers_iff_eq op op' hc
  have hpc := m.perform_pc w op hok
  have hskips := op.skips_iff w m.registers (Keypad.read m.keypad).1 hc
  have hpauses := op.pauses_iff w (Keypad.read m.keypad).1 hc
  constructor
  case jump =>
    rintro (hw | hw)
    · obtain rfl := (hop .jump).mp hw
      exact hpc
    · obtain rfl := (hop .call).mp hw
      exact hpc
  case offset =>
    intro hw
    obtain rfl := (hop .jumpOffset).mp hw
    rw [hpc]
    exact w.toNat_nnn_add _
  case ret =>
    intro hw
    obtain rfl := (hop .ret).mp hw
    obtain ⟨top, hstack, htop⟩ := m.perform_ret w hok
    exact ⟨top, by rw [hstack, Array.back?_push], htop⟩
  case stay =>
    rintro ⟨hf, hn, hkey⟩
    obtain rfl := (hop .awaitKey).mp ⟨hf, hn⟩
    rw [hpc, destination, hkey]
    rfl
  case skip =>
    intro hs
    rw [hpc]
    exact m.destination_of_skips w _ op (hskips.mpr hs)
  case next =>
    intro hjump hret hstay hskip
    rw [hpc]
    apply destination_next
    · intro hmem
      simp only [List.mem_cons, List.not_mem_nil, or_false] at hmem
      rcases hmem with rfl | rfl | rfl | rfl
      · exact hjump (.inl hc)
      · exact hjump (.inr (.inl hc))
      · exact hjump (.inr (.inr hc))
      · exact hret hc
    · rintro rfl hkey
      exact hstay ⟨hc.1, hc.2, hkey⟩
    · exact mt hskips.mp hskip
  case wait =>
    rw [m.perform_outcome w op hok, ← hpauses]
    split_ifs with h <;> simp [h]
  case proceed =>
    rw [m.perform_outcome w op hok, ← hpauses]
    split_ifs with h <;> simp [h]

omit [Keypad κ] in
theorem skip_or_skip_not (m : Machine κ) (skips : Bool) :
    (m.skip skips).pc = m.pc + 4 ∧ (m.skip !skips).pc = m.pc + 2 ∨
      (m.skip skips).pc = m.pc + 2 ∧ (m.skip !skips).pc = m.pc + 4 := by
  cases skips with
  | true => exact .inl ⟨rfl, rfl⟩
  | false => exact .inr ⟨rfl, rfl⟩

theorem execute_opposite (m : Machine κ) (w w' : Word) (h : w.Opposite w') :
    (m.execute w).1.pc = m.pc + 4 ∧ (m.execute w').1.pc = m.pc + 2 ∨
      (m.execute w).1.pc = m.pc + 2 ∧ (m.execute w').1.pc = m.pc + 4 := by
  obtain ⟨hx, ⟨hw, hw', hnn⟩ | ⟨hw, hw', hy⟩ | ⟨hw, hw'⟩⟩ := h
  · rw [m.execute_of_covers w .skipIfByte hw, m.execute_of_covers w' .skipUnlessByte hw']
    simp only [perform, ← hx, ← hnn]
    exact m.skip_or_skip_not _
  · rw [m.execute_of_covers w .skipIfSame hw, m.execute_of_covers w' .skipUnlessSame hw']
    simp only [perform, ← hx, ← hy]
    exact m.skip_or_skip_not _
  · rw [m.execute_of_covers w .skipIfKey hw, m.execute_of_covers w' .skipUnlessKey hw']
    simp only [perform, skipOnKey, ← hx]
    exact skip_or_skip_not _ _

/-- **Where a program goes on.** The next address and the outcome of a word that is executed are
fixed by the machine before it and by the key that the keypad answers with. Of two words that skip on
opposite answers to one question exactly one skips. -/
theorem execute_continues (m : Machine κ) :
    (∀ w, (m.execute w).2.Succeeds →
      m.Continues (m.execute w).1 (m.execute w).2 (Keypad.read m.keypad).1 w) ∧
    (∀ w w' : Word, w.Opposite w' →
      (m.execute w).1.pc = m.pc + 4 ∧ (m.execute w').1.pc = m.pc + 2 ∨
        (m.execute w).1.pc = m.pc + 2 ∧ (m.execute w').1.pc = m.pc + 4) := by
  constructor
  · intro w h
    obtain ⟨op, hc, hop⟩ := m.execute_succeeds w h
    rw [hop] at h ⊢
    exact m.continues_perform w op hc h
  · exact m.execute_opposite

/-- The farthest jump, and a register that names no key: EXA1 skips whatever is down. -/
theorem execute_continues_all_ones :
    (({ bare [] with registers := ⟨Vector.replicate 16 0xFF⟩ } : Machine Script).execute
      0xBFFF).1.pc.toNat = 0x10FE ∧
    (({ bare [] with
      registers := ⟨Vector.replicate 16 0xFF⟩
      keypad := { answers := [some 15] } } : Machine Script).execute 0xE0A1).1.pc = 4 := by
  constructor
  · have h := (execute_continues { bare [] with registers := ⟨Vector.replicate 16 0xFF⟩ }).1
      0xBFFF (.inl (by decide +kernel))
    rw [h.offset (by decide)]
    decide
  · have h := (execute_continues { bare [] with
      registers := ⟨Vector.replicate 16 0xFF⟩
      keypad := ({ answers := [some 15] } : Script) }).1 0xE0A1 (.inl (by decide +kernel))
    have hother : ¬ Registers.Names ⟨Vector.replicate 16 0xFF⟩ 0 (some 15) := by
      rintro ⟨k, hk, hv⟩
      have : k.val = 255 := hv
      omega
    exact h.skip (.inr (.inr (.inr (.inr (.inr ⟨by decide, by decide, hother⟩)))))

end Machine

end Chip8
