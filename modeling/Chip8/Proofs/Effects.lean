import Mathlib.Tactic.SplitIfs
import Chip8.Proofs.Faults

/-!
# What an instruction touches

An operation changes the parts of the machine that its kind allows and leaves the others alone. A
table says which parts those are. Memory and registers are looked at more closely: which bytes and
which registers.
-/

namespace Chip8

/-! ## Bytes and registers after a write -/

theorem Memory.getElem_overwrite (memory : Memory) (a : Nat) (bs : List UInt8) (i : Nat)
    (hi : i < 4096) :
    (memory.overwrite a bs).bytes[i] =
      if a ≤ i then bs[i - a]?.getD memory.bytes[i] else memory.bytes[i] := by
  induction bs generalizing memory a with
  | nil => simp [overwrite]
  | cons b bs ih =>
    rw [overwrite, ih]
    rcases Nat.lt_trichotomy a i with hlt | rfl | hgt
    · have hsucc : i - a = i - (a + 1) + 1 := by omega
      rw [if_pos (by omega), if_pos (by omega), hsucc]
      simp [show a ≠ i by omega]
    · rw [if_neg (by omega), if_pos (by omega)]
      simp
    · rw [if_neg (by omega), if_neg (by omega)]
      simp [show a ≠ i by omega]

/-- Only the bytes that the region covers change. -/
theorem Memory.overwrite_outside (memory : Memory) (a : Nat) (bs : List UInt8) (i : Nat)
    (hi : i < 4096) (h : i < a ∨ a + bs.length ≤ i) :
    (memory.overwrite a bs).bytes[i] = memory.bytes[i] := by
  rw [getElem_overwrite]
  split_ifs with ha
  · rw [List.getElem?_eq_none (by omega)]
    rfl
  · rfl

theorem Memory.length_region {memory : Memory} {a len : Nat} {bs : List UInt8}
    (h : memory.region a len = .ok bs) : bs.length = len := by
  unfold region check at h
  split_ifs at h with hfit
  · simp only [Except.map, Except.ok.injEq] at h
    subst h
    simp only [clamped, Array.length_toList, Array.size_extract, Vector.size_toArray]
    unfold size at hfit
    omega
  · cases h

namespace Registers

theorem get_set (v : Registers) (x r : Nibble) (b : UInt8) :
    (v.set x b).get r = if x = r then b else v.get r := by
  simp [get, set, Vector.getElem_set, Fin.ext_iff]

theorem get_set_of_ne (v : Registers) (x r : Nibble) (b : UInt8) (h : r ≠ x) :
    (v.set x b).get r = v.get r := by
  rw [get_set, if_neg (Ne.symm h)]

theorem ext_get (v v' : Registers) (h : ∀ r, v.get r = v'.get r) : v = v' := by
  apply Registers.ext
  apply Vector.ext
  intro i hi
  exact h ⟨i, hi⟩

theorem get_load (v : Registers) (bs : List UInt8) (r : Nibble) :
    (v.load bs).get r = bs[r.val]?.getD (v.get r) := by
  simp [load, get]

end Registers

theorem Random.key_next (r : Random) : r.next.key = r.key := by
  unfold next
  split <;> rfl

theorem Random.drawn_next (r : Random) : r.next.drawn = r.drawn + 1 := by
  unfold next
  split <;> rfl

/-! ## The table of kinds -/

/-- What a machine is made of, apart from the program counter. -/
inductive Part where
  | memory
  | registers
  | index
  | stack
  | delay
  | sound
  | screen
  | keypad
  | random
  | clock
  | limit
  deriving DecidableEq

def Part.Same {κ : Type} (m m' : Machine κ) : Part → Prop
  | memory => m'.memory = m.memory
  | registers => m'.registers = m.registers
  | index => m'.index = m.index
  | stack => m'.stack = m.stack
  | delay => m'.delay = m.delay
  | sound => m'.sound = m.sound
  | screen => m'.screen = m.screen
  | keypad => m'.keypad = m.keypad
  | random => m'.random = m.random
  | clock => m'.now = m.now
  | limit => m'.stackLimit = m.stackLimit

theorem Part.same_refl {κ : Type} (part : Part) (m : Machine κ) : part.Same m m := by
  cases part <;> rfl

/-- Whether the flag register is written beside VX. -/
def Arithmetic.flags : Arithmetic → Bool
  | copy | or | and | xor => false
  | add | sub | shiftRight | subFrom | shiftLeft => true

namespace Operation

/-- The parts that an operation may change. -/
def parts : Operation → List Part
  | native | jump | jumpOffset | skipIfByte | skipUnlessByte | skipIfSame | skipUnlessSame => []
  | clearScreen => [.screen]
  | ret | call => [.stack]
  | setByte | addByte | arithmetic _ | readDelay | loadRegisters => [.registers]
  | setIndex | addIndex | glyph => [.index]
  | random => [.registers, .random]
  | draw => [.registers, .screen]
  | skipIfKey | skipUnlessKey => [.keypad]
  | awaitKey => [.registers, .keypad]
  | setDelay => [.delay]
  | setSound => [.sound]
  | decimal | storeRegisters => [.memory]

/-- How many bytes an operation may change, from I on. -/
def stored (w : Word) : Operation → Nat
  | decimal => 3
  | storeRegisters => w.x.val + 1
  | _ => 0

/-- The registers that an operation may change. -/
def Writes (w : Word) (r : Nibble) : Operation → Prop
  | setByte | addByte | random | readDelay | awaitKey => r = w.x
  | arithmetic op => r = w.x ∨ op.flags = true ∧ r = 15
  | draw => r = 15
  | loadRegisters => r ≤ w.x
  | _ => False

theorem clock_not_mem_parts (op : Operation) : .clock ∉ op.parts := by
  cases op <;> simp [parts]

theorem limit_not_mem_parts (op : Operation) : .limit ∉ op.parts := by
  cases op <;> simp [parts]

theorem reads_keypad_iff (op : Operation) (w : Word) (hc : op.Covers w) :
    .keypad ∈ op.parts ↔
      w.family = 0xE ∧ (w.nn = 0x9E ∨ w.nn = 0xA1) ∨ w.family = 0xF ∧ w.nn = 0x0A := by
  have hop := fun op' => w.covers_iff_eq op op' hc
  constructor
  · intro h
    cases op <;> simp [parts] at h
    case skipIfKey => exact .inl ⟨hc.1, .inl hc.2⟩
    case skipUnlessKey => exact .inl ⟨hc.1, .inr hc.2⟩
    case awaitKey => exact .inr hc
  · rintro (⟨hf, hn | hn⟩ | hw)
    · obtain rfl := (hop .skipIfKey).mp ⟨hf, hn⟩
      decide
    · obtain rfl := (hop .skipUnlessKey).mp ⟨hf, hn⟩
      decide
    · obtain rfl := (hop .awaitKey).mp hw
      decide

theorem selector_of_flags (op : Arithmetic) (h : op.flags = true) :
    op.selector = 4 ∨ op.selector = 5 ∨ op.selector = 6 ∨ op.selector = 7 ∨ op.selector = 0xE := by
  cases op <;> simp [Arithmetic.flags] at h <;> decide

theorem fields_of_writes (op : Operation) (w : Word) (r : Nibble) (hc : op.Covers w)
    (h : op.Writes w r) :
    r = w.x ∧ (w.family = 6 ∨ w.family = 7 ∨ w.family = 8 ∨ w.family = 0xC ∨
      w.family = 0xF ∧ (w.nn = 0x07 ∨ w.nn = 0x0A)) ∨
    r = 15 ∧ (w.family = 8 ∧ (w.n = 4 ∨ w.n = 5 ∨ w.n = 6 ∨ w.n = 7 ∨ w.n = 0xE) ∨
      w.family = 0xD) ∨
    r ≤ w.x ∧ w.family = 0xF ∧ w.nn = 0x65 := by
  cases op
  case setByte => exact .inl ⟨h, .inl hc⟩
  case addByte => exact .inl ⟨h, .inr (.inl hc)⟩
  case arithmetic op =>
    obtain ⟨hf, hn⟩ := hc
    rcases h with hx | ⟨hflags, h15⟩
    · exact .inl ⟨hx, .inr (.inr (.inl hf))⟩
    · rw [hn]
      exact .inr (.inl ⟨h15, .inl ⟨hf, selector_of_flags op hflags⟩⟩)
  case random => exact .inl ⟨h, .inr (.inr (.inr (.inl hc)))⟩
  case readDelay => exact .inl ⟨h, .inr (.inr (.inr (.inr ⟨hc.1, .inl hc.2⟩)))⟩
  case awaitKey => exact .inl ⟨h, .inr (.inr (.inr (.inr ⟨hc.1, .inr hc.2⟩)))⟩
  case draw => exact .inr (.inl ⟨h, .inr hc⟩)
  case loadRegisters => exact .inr (.inr ⟨h, hc⟩)
  all_goals cases h

end Operation

namespace Machine

variable {κ : Type}

/-- What holds of the machine before and after an attempt holds whether it fails or not. -/
theorem attempt_state {α : Type} (P : Machine κ → Prop) (m : Machine κ) (result : Except Fault α)
    (next : α → Machine κ) (hm : P m) (hnext : ∀ a, result = .ok a → P (next a)) :
    P (m.attempt result next).1 := by
  cases result with
  | error fault => exact hm
  | ok a => exact hnext a rfl

theorem attempt_succeeds {α : Type} (m : Machine κ) (result : Except Fault α)
    (next : α → Machine κ) (h : (m.attempt result next).2.Succeeds) :
    ∃ a, result = .ok a ∧ m.attempt result next = (next a, .proceed) := by
  cases result with
  | error fault => simp [attempt, Outcome.Succeeds] at h
  | ok a => exact ⟨a, rfl, rfl⟩

variable [Keypad κ]

theorem perform_same (m : Machine κ) (w : Word) (op : Operation) (part : Part)
    (h : part ∉ op.parts) : part.Same m (m.perform w op).1 := by
  cases op
  case ret | call | decimal | storeRegisters | loadRegisters =>
    apply attempt_state (part.Same m)
    · exact part.same_refl m
    · intro _ _
      cases part <;> simp [Operation.parts] at h <;> rfl
  case awaitKey | setDelay | setSound =>
    simp only [perform, awaitKey]
    split <;> cases part <;> simp [Operation.parts] at h <;> rfl
  all_goals cases part <;> simp [Operation.parts] at h <;> rfl

/-! ## Inside a part -/

omit [Keypad κ] in
theorem storeAtIndex_byte (m : Machine κ) (bs : List UInt8) (i : Nat) (hi : i < 4096)
    (h : i < m.index.val ∨ m.index.val + bs.length ≤ i) :
    (m.storeAtIndex bs).1.memory.bytes[i] = m.memory.bytes[i] := by
  apply attempt_state fun m' => m'.memory.bytes[i] = m.memory.bytes[i]
  · rfl
  · intro _ _
    exact m.memory.overwrite_outside _ _ i hi h

theorem perform_byte (m : Machine κ) (w : Word) (op : Operation) (i : Nat) (hi : i < 4096)
    (h : i < m.index.val ∨ m.index.val + op.stored w ≤ i) :
    (m.perform w op).1.memory.bytes[i] = m.memory.bytes[i] := by
  by_cases hmem : Part.memory ∈ op.parts
  · cases op
    case decimal =>
      exact m.storeAtIndex_byte _ i hi h
    case storeRegisters =>
      apply m.storeAtIndex_byte _ i hi
      rw [Registers.length_take]
      exact h
    all_goals simp [Operation.parts] at hmem
  · rw [m.perform_same w op .memory hmem]

theorem arithmetic_get (v : Registers) (x y r : Nibble) (op : Arithmetic) (hx : r ≠ x)
    (hf : op.flags = true → r ≠ 15) : (arithmetic v x y op).get r = v.get r := by
  cases op
  case copy | or | and | xor => exact v.get_set_of_ne x r _ hx
  case add | sub | subFrom =>
    simp only [arithmetic, Registers.setFlag]
    rw [Registers.get_set_of_ne _ _ _ _ (hf rfl), Registers.get_set_of_ne _ _ _ _ hx]
  case shiftRight | shiftLeft =>
    simp only [arithmetic, Registers.setFlag]
    rw [Registers.get_set_of_ne _ _ _ _ hx, Registers.get_set_of_ne _ _ _ _ (hf rfl)]

theorem perform_register (m : Machine κ) (w : Word) (op : Operation) (r : Nibble)
    (h : ¬ op.Writes w r) : (m.perform w op).1.registers.get r = m.registers.get r := by
  by_cases hreg : Part.registers ∈ op.parts
  · cases op
    case setByte | addByte | random | readDelay =>
      exact m.registers.get_set_of_ne _ _ _ h
    case awaitKey =>
      simp only [perform, awaitKey]
      split
      · exact m.registers.get_set_of_ne _ _ _ h
      · rfl
    case arithmetic op =>
      apply arithmetic_get
      · intro hx
        exact h (.inl hx)
      · intro hf hr
        exact h (.inr ⟨hf, hr⟩)
    case draw => exact m.registers.get_set_of_ne _ _ _ h
    case loadRegisters =>
      apply attempt_state fun m' => m'.registers.get r = m.registers.get r
      · rfl
      · intro bytes hbytes
        have hlen := Memory.length_region hbytes
        have hr : w.x.val < r.val := Fin.not_le.mp h
        refine (Registers.get_load _ _ _).trans ?_
        rw [List.getElem?_eq_none (by omega)]
        rfl
    all_goals simp [Operation.parts] at hreg
  · rw [m.perform_same w op .registers hreg]

theorem perform_random (m : Machine κ) (w : Word) (op : Operation) :
    (m.perform w op).1.random = if op = .random then m.random.next else m.random := by
  by_cases h : Part.random ∈ op.parts
  · cases op
    case random => rfl
    all_goals simp [Operation.parts] at h
  · rw [m.perform_same w op .random h, if_neg]
    rintro rfl
    exact h (by decide)

theorem perform_keypad (m : Machine κ) (w : Word) (op : Operation) :
    (m.perform w op).1.keypad =
      if Part.keypad ∈ op.parts then (Keypad.read m.keypad).2 else m.keypad := by
  split_ifs with h
  · cases op
    case skipIfKey | skipUnlessKey => rfl
    case awaitKey =>
      simp only [perform, awaitKey]
      split <;> simp_all [assign, advance]
    all_goals simp [Operation.parts] at h
  · exact m.perform_same w op .keypad h

theorem perform_stack (m : Machine κ) (w : Word) (op : Operation) (hcall : op ≠ .call)
    (hret : op ≠ .ret) : (m.perform w op).1.stack = m.stack := by
  apply m.perform_same w op .stack
  cases op <;> simp_all [Operation.parts]

theorem perform_call (m : Machine κ) (w : Word) (h : (m.perform w .call).2.Succeeds) :
    (m.perform w .call).1.stack = m.stack.push m.pc := by
  obtain ⟨_, _, hnext⟩ := attempt_succeeds _ _ _ h
  exact congrArg (·.1.stack) hnext

theorem perform_ret (m : Machine κ) (w : Word) (h : (m.perform w .ret).2.Succeeds) :
    ∃ address, m.stack = (m.perform w .ret).1.stack.push address ∧
      (m.perform w .ret).1.pc = address + 2 := by
  obtain ⟨address, hcall, hnext⟩ := attempt_succeeds _ _ _ h
  refine ⟨address, ?_, congrArg (·.1.pc) hnext⟩
  have hstack : (m.perform w .ret).1.stack = m.stack.pop := congrArg (·.1.stack) hnext
  unfold newestCall at hcall
  split at hcall
  · rename_i hback
    cases hcall
    obtain ⟨rest, hrest⟩ := Array.back?_eq_some_iff.mp hback
    rw [hstack, hrest, Array.pop_push]
  · cases hcall

/-! ## Words -/

/-- What a word may change in a machine. -/
structure Touches (m m' : Machine κ) (w : Word) : Prop where
  memory : ∀ (a : Nat) (_ : a < 4096), m'.memory.bytes[a] ≠ m.memory.bytes[a] →
    w.family = 0xF ∧ m.index.val ≤ a ∧
      (w.nn = 0x33 ∧ a < m.index.val + 3 ∨ w.nn = 0x55 ∧ a ≤ m.index.val + w.x.val)
  push : w.family = 2 → m'.stack = m.stack.push m.pc
  pop : w = 0x00EE → ∃ top, m.stack = m'.stack.push top
  stack : w.family ≠ 2 → w ≠ 0x00EE → m'.stack = m.stack
  index : m'.index ≠ m.index → w.family = 0xA ∨ w.family = 0xF ∧ (w.nn = 0x1E ∨ w.nn = 0x29)
  delay : m'.delay ≠ m.delay → w.family = 0xF ∧ w.nn = 0x15
  sound : m'.sound ≠ m.sound → w.family = 0xF ∧ w.nn = 0x18
  screen : m'.screen ≠ m.screen → w = 0x00E0 ∨ w.family = 0xD
  -- A stream is its key and the number of draws so far.
  random : m'.random.key = m.random.key ∧
    m'.random.drawn = m.random.drawn + if w.family = 0xC then 1 else 0
  keypad : m'.keypad =
    if w.family = 0xE ∧ (w.nn = 0x9E ∨ w.nn = 0xA1) ∨ w.family = 0xF ∧ w.nn = 0x0A then
      (Keypad.read m.keypad).2
    else m.keypad
  registers : ∀ r, m'.registers.get r ≠ m.registers.get r →
    r = w.x ∧ (w.family = 6 ∨ w.family = 7 ∨ w.family = 8 ∨ w.family = 0xC ∨
      w.family = 0xF ∧ (w.nn = 0x07 ∨ w.nn = 0x0A)) ∨
    r = 15 ∧ (w.family = 8 ∧ (w.n = 4 ∨ w.n = 5 ∨ w.n = 6 ∨ w.n = 7 ∨ w.n = 0xE) ∨
      w.family = 0xD) ∨
    r ≤ w.x ∧ w.family = 0xF ∧ w.nn = 0x65
  clock : m'.now = m.now
  limit : m'.stackLimit = m.stackLimit

theorem touches_perform (m : Machine κ) (w : Word) (op : Operation) (hc : op.Covers w)
    (hok : (m.perform w op).2.Succeeds) : m.Touches (m.perform w op).1 w := by
  have hpart : ∀ part : Part, ¬ part.Same m (m.perform w op).1 → part ∈ op.parts := by
    intro part hne
    by_contra hno
    exact hne (m.perform_same w op part hno)
  have hop := fun op' => w.covers_iff_eq op op' hc
  constructor
  case memory =>
    intro a ha hne
    have hregion : m.index.val ≤ a ∧ a < m.index.val + op.stored w := by
      by_contra hno
      exact hne (m.perform_byte w op a ha (by omega))
    cases op <;> simp only [Operation.stored] at hregion
    case decimal => exact ⟨hc.1, hregion.1, .inl ⟨hc.2, hregion.2⟩⟩
    case storeRegisters => exact ⟨hc.1, hregion.1, .inr ⟨hc.2, by omega⟩⟩
    all_goals omega
  case push =>
    intro hw
    obtain rfl := (hop .call).mp hw
    exact m.perform_call w hok
  case pop =>
    intro hw
    obtain rfl := (hop .ret).mp hw
    obtain ⟨top, hstack, _⟩ := m.perform_ret w hok
    exact ⟨top, hstack⟩
  case stack =>
    intro hcall hret
    apply m.perform_stack w op
    · rintro rfl
      exact hcall hc
    · rintro rfl
      exact hret hc
  case index =>
    intro hne
    have hop := hpart .index hne
    cases op <;> simp [Operation.parts] at hop
    case setIndex => exact .inl hc
    case addIndex => exact .inr ⟨hc.1, .inl hc.2⟩
    case glyph => exact .inr ⟨hc.1, .inr hc.2⟩
  case delay =>
    intro hne
    have hop := hpart .delay hne
    cases op <;> simp [Operation.parts] at hop
    exact hc
  case sound =>
    intro hne
    have hop := hpart .sound hne
    cases op <;> simp [Operation.parts] at hop
    exact hc
  case screen =>
    intro hne
    have hop := hpart .screen hne
    cases op <;> simp [Operation.parts] at hop
    case clearScreen => exact .inl hc
    case draw => exact .inr hc
  case random =>
    rw [m.perform_random w op]
    by_cases hw : w.family = 0xC
    · rw [if_pos ((hop .random).mp hw), if_pos hw]
      exact ⟨m.random.key_next, m.random.drawn_next⟩
    · rw [if_neg (mt (hop .random).mpr hw), if_neg hw]
      exact ⟨rfl, rfl⟩
  case keypad =>
    rw [m.perform_keypad w op]
    simp only [op.reads_keypad_iff w hc]
  case registers =>
    intro r hne
    apply op.fields_of_writes w r hc
    by_contra hno
    exact hne (m.perform_register w op r hno)
  case clock => exact m.perform_same w op .clock (op.clock_not_mem_parts)
  case limit => exact m.perform_same w op .limit (op.limit_not_mem_parts)

/-- **What an instruction touches.** A word that is executed changes at most what its kind allows,
and it reads the keypad and the random bytes exactly as often as its kind says. -/
theorem execute_touches (m : Machine κ) (w : Word) (h : (m.execute w).2.Succeeds) :
    m.Touches (m.execute w).1 w := by
  obtain ⟨op, hc, hop⟩ := m.execute_succeeds w h
  rw [hop] at h ⊢
  exact m.touches_perform w op hc h

/-- FX55 with X = 1 writes the last two bytes of memory and not the one below. EX9E reads a key once. -/
theorem execute_touches_last_bytes :
    (({ bare [] with index := 4094 } : Machine Script).execute 0xF155).1.memory.bytes[4093] = 0 ∧
    ((bare []).execute 0xE09E).1.keypad = { answers := [], reads := 1 } := by
  constructor
  · have h := execute_touches { bare [] with index := 4094 } 0xF155 (.inl (by decide +kernel))
    have hbyte : (bare []).memory.bytes[4093] = 0 := by simp [bare, Memory.overwrite]
    by_contra hne
    obtain ⟨_, hlow, _⟩ := h.memory 4093 (by decide) (by rw [hbyte]; exact hne)
    exact absurd hlow (by decide)
  · have h := execute_touches (bare []) 0xE09E (.inl (by decide +kernel))
    rw [h.keypad, if_pos (by decide)]
    rfl

end Machine

end Chip8
