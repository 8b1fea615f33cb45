import Chip8.Proofs.Bounds
import Chip8.Proofs.Regions

/-!
# Registers in memory

FX55 stores V0 to VX at I and FX65 loads them from there, so each takes back what the other did as
long as I and the bytes stay. FX33 stores the decimal digits of VX in the same way.
-/

namespace Chip8

theorem Memory.ext_read {memory memory' : Memory} (h : ∀ a, memory.read a = memory'.read a) :
    memory = memory' := by
  apply Memory.ext
  apply Vector.ext
  intro a ha
  have hread := h a
  rw [memory.read_of_lt ha, memory'.read_of_lt ha] at hread
  exact Except.ok.inj hread

theorem Registers.getElem?_take (v : Registers) {x r : Nibble} (h : r ≤ x) :
    (v.toList.take (x.val + 1))[r.val]? = some (v.get r) := by
  have hr : r.val < x.val + 1 := Nat.lt_succ_of_le h
  simp [toList, get, List.getElem?_take_of_lt hr]

/-- V0, V1 and V2 are the decimal digits of a number. -/
def Registers.Spells (v : Registers) (n : Nat) : Prop :=
  (v.get 0).toNat ≤ 9 ∧ (v.get 1).toNat ≤ 9 ∧ (v.get 2).toNat ≤ 9 ∧
    100 * (v.get 0).toNat + 10 * (v.get 1).toNat + (v.get 2).toNat = n

namespace Machine

variable {κ : Type}

/-! ## Storing and loading -/

/-- The bytes lie at I now, and nothing else has changed. -/
structure Stores (m m' : Machine κ) (bs : List UInt8) : Prop where
  bytes : ∀ k b, bs[k]? = some b → m'.memory.read (m.index.val + k) = .ok b
  outside : ∀ a, a < m.index.val ∨ m.index.val + bs.length ≤ a →
    m'.memory.read a = m.memory.read a
  rest : m' = { m with pc := m.pc + 2, memory := m'.memory }

/-- V0 to VX hold the bytes at I now, and nothing else has changed. -/
structure Loads (m m' : Machine κ) (x : Nibble) : Prop where
  bytes : ∀ r ≤ x, m.memory.read (m.index.val + r.val) = .ok (m'.registers.get r)
  above : ∀ r, x < r → m'.registers.get r = m.registers.get r
  rest : m' = { m with pc := m.pc + 2, registers := m'.registers }

theorem storeAtIndex_stores (m : Machine κ) (bs : List UInt8)
    (h : m.index.val + bs.length ≤ 4096) :
    (m.storeAtIndex bs).2 = .proceed ∧ m.Stores (m.storeAtIndex bs).1 bs := by
  have hstore : m.storeAtIndex bs =
      ({ m with memory := m.memory.overwrite m.index.val bs }.advance, .proceed) := by
    simp [storeAtIndex, Memory.check, Memory.size, h, attempt]
  rw [hstore]
  refine ⟨rfl, ?_, ?_, rfl⟩
  · intro k b hb
    have hk : k < bs.length := (List.getElem?_eq_some_iff.mp hb).1
    have ha : m.index.val + k < 4096 := by omega
    simp [advance, Memory.read_of_lt _ ha, Memory.getElem_overwrite, hb]
  · intro a hout
    rcases Nat.lt_or_ge a 4096 with ha | ha
    · simp [advance, Memory.read_of_lt _ ha, Memory.overwrite_outside _ _ _ _ ha hout]
    · simp [advance, Memory.read_of_le _ ha]

theorem region_loads (m : Machine κ) (x : Nibble) (h : m.index.val + x.val + 1 ≤ 4096) :
    ∃ bytes, m.memory.region m.index.val (x.val + 1) = .ok bytes ∧
      m.Loads { m with registers := m.registers.load bytes }.advance x := by
  have hregion : m.memory.region m.index.val (x.val + 1) =
      .ok (m.memory.clamped m.index.val (x.val + 1)) := by
    rw [Memory.region_eq_ite, if_pos (by omega)]
  have hreads := (m.memory.region_eq_ok_iff (by omega) _).mp hregion
  refine ⟨_, hregion, ?_, ?_, rfl⟩
  · intro r hr
    have hr' : r.val < x.val + 1 := Nat.lt_succ_of_le hr
    have hanswer : ((m.memory.clamped m.index.val (x.val + 1)).map .ok)[r.val]? =
        some (m.memory.read (m.index.val + r.val)) := by
      simp [← hreads, Memory.reads, hr']
    rw [List.getElem?_map] at hanswer
    obtain ⟨b, hb, hread⟩ := Option.map_eq_some_iff.mp hanswer
    simp [advance, Registers.get_load, hb, ← hread]
  · intro r hr
    have hlen := Memory.length_region hregion
    have hr' : x.val < r.val := hr
    refine (Registers.get_load _ _ _).trans ?_
    rw [List.getElem?_eq_none (by omega)]
    rfl

/-- Loading finds what was stored, wherever it is done. -/
theorem Stores.getElem?_of_loads {m m₁ m₂ m₃ : Machine κ} {bs : List UInt8} {x : Nibble}
    (hs : m.Stores m₁ bs) (hl : m₂.Loads m₃ x) (hindex : m₂.index = m.index)
    (hbytes : ∀ a, m.index.val ≤ a → a ≤ m.index.val + x.val →
      m₂.memory.read a = m₁.memory.read a) (hx : x.val < bs.length) (r : Nibble) (hr : r ≤ x) :
    bs[r.val]? = some (m₃.registers.get r) := by
  have hr' : r.val ≤ x.val := hr
  have hlen : r.val < bs.length := by omega
  have hread := hl.bytes r hr
  rw [hindex, hbytes _ (by omega) (by omega), hs.bytes _ _ (List.getElem?_eq_getElem hlen)] at hread
  rw [List.getElem?_eq_getElem hlen, Except.ok.inj hread]

theorem Loads.memory_of_stores {m m₁ m₂ : Machine κ} {x : Nibble} (hl : m.Loads m₁ x)
    (hs : m₁.Stores m₂ (m₁.registers.toList.take (x.val + 1))) : m₂.memory = m.memory := by
  have hindex : m₁.index = m.index := congrArg (·.index) hl.rest
  have hmemory : m₁.memory = m.memory := congrArg (·.memory) hl.rest
  apply Memory.ext_read
  intro a
  by_cases hin : m.index.val ≤ a ∧ a ≤ m.index.val + x.val
  · have hx := x.isLt
    obtain ⟨r, rfl⟩ : ∃ r : Nibble, m.index.val + r.val = a :=
      ⟨⟨a - m.index.val, by omega⟩, by simp; omega⟩
    have hr : r ≤ x := Fin.le_def.mpr (by omega)
    rw [← hindex, hs.bytes _ _ (m₁.registers.getElem?_take hr), hindex, hl.bytes r hr]
  · rw [hs.outside, hmemory]
    rw [hindex, Registers.length_take]
    omega

/-! ## Words -/

variable [Keypad κ]

theorem execute_storeRegisters (m : Machine κ) (w : Word) (hw : Operation.storeRegisters.Covers w)
    (h : m.index.val + w.x.val + 1 ≤ 4096) :
    (m.execute w).2 = .proceed ∧
      m.Stores (m.execute w).1 (m.registers.toList.take (w.x.val + 1)) := by
  rw [m.execute_of_covers w .storeRegisters hw]
  apply storeAtIndex_stores
  rw [Registers.length_take]
  exact h

theorem execute_decimal (m : Machine κ) (w : Word) (hw : Operation.decimal.Covers w)
    (h : m.index.val + 3 ≤ 4096) :
    (m.execute w).2 = .proceed ∧
      m.Stores (m.execute w).1 (decimalDigits (m.registers.get w.x)) := by
  rw [m.execute_of_covers w .decimal hw]
  exact m.storeAtIndex_stores _ h

theorem execute_loadRegisters (m : Machine κ) (w : Word) (hw : Operation.loadRegisters.Covers w)
    (h : m.index.val + w.x.val + 1 ≤ 4096) :
    (m.execute w).2 = .proceed ∧ m.Loads (m.execute w).1 w.x := by
  obtain ⟨bytes, hregion, hloads⟩ := m.region_loads w.x h
  have hexecute : m.execute w =
      ({ m with registers := m.registers.load bytes }.advance, .proceed) := by
    rw [m.execute_of_covers w .loadRegisters hw]
    simp [perform, hregion, attempt]
  rw [hexecute]
  exact ⟨rfl, hloads⟩

theorem restores_after_store (m m' : Machine κ) (w w' : Word)
    (hw : Operation.storeRegisters.Covers w) (hw' : Operation.loadRegisters.Covers w')
    (hx : w'.x = w.x) (hroom : m.index.val + w.x.val + 1 ≤ 4096) (hindex : m'.index = m.index)
    (hbytes : ∀ a, m.index.val ≤ a → a ≤ m.index.val + w.x.val →
      m'.memory.read a = (m.execute w).1.memory.read a) :
    (m'.execute w').2 = .proceed ∧
      ∀ r ≤ w.x, (m'.execute w').1.registers.get r = m.registers.get r := by
  obtain ⟨-, hstores⟩ := m.execute_storeRegisters w hw hroom
  obtain ⟨hok, hloads⟩ := m'.execute_loadRegisters w' hw' (by rwa [hindex, hx])
  rw [hx] at hloads
  refine ⟨hok, ?_⟩
  intro r hr
  have hlen := m.registers.length_take w.x
  have hbyte := hstores.getElem?_of_loads hloads hindex hbytes (by omega) r hr
  rw [m.registers.getElem?_take hr] at hbyte
  exact (Option.some.inj hbyte).symm

omit [Keypad κ] in
theorem spells_of_digits (v : Registers) (b : UInt8)
    (h : ∀ r : Nibble, r ≤ 2 → (decimalDigits b)[r.val]? = some (v.get r)) :
    v.Spells b.toNat := by
  have hb := b.toNat_lt
  have h0 : b / 100 = v.get 0 := Option.some.inj (h 0 (by decide))
  have h1 : b / 10 % 10 = v.get 1 := Option.some.inj (h 1 (by decide))
  have h2 : b % 10 = v.get 2 := Option.some.inj (h 2 (by decide))
  simp [Registers.Spells, ← h0, ← h1, ← h2]
  omega

theorem spells_after_decimal (m : Machine κ) (w : Word) (hw : Operation.decimal.Covers w)
    (hroom : m.index.val ≤ 4093) :
    (m.execute w).2 = .proceed ∧ ((m.execute w).1.execute 0xF265).2 = .proceed ∧
      ((m.execute w).1.execute 0xF265).1.registers.Spells (m.registers.get w.x).toNat := by
  obtain ⟨hok, hstores⟩ := m.execute_decimal w hw (by omega)
  have hindex : (m.execute w).1.index = m.index := congrArg (·.index) hstores.rest
  have hx : Word.x 0xF265 = 2 := by decide
  obtain ⟨hok', hloads⟩ := (m.execute w).1.execute_loadRegisters 0xF265
    ⟨by decide, by decide⟩
    (by rw [hindex, hx]; exact Nat.add_le_add_right hroom 3)
  rw [hx] at hloads
  refine ⟨hok, hok', spells_of_digits _ _ ?_⟩
  exact hstores.getElem?_of_loads hloads hindex (fun _ _ _ => rfl)
    (Nat.lt_succ_self 2)

/-- **Registers in memory.** If the bytes from I on have room for V0 to VX, FX55 and FX65 go through
and change nothing but those bytes and those registers. Whatever is asked of the machine after FX55,
FX65 restores the registers if I and the bytes are as FX55 left them. FX55 after FX65 leaves all of
memory as it was. And after FX33 and F265 the digits of VX are in V0, V1 and V2. -/
theorem registers_survive_in_memory (m : Machine κ) (w w' : Word)
    (hw : w.family = 0xF ∧ w.nn = 0x55) (hw' : w'.family = 0xF ∧ w'.nn = 0x65) (hx : w'.x = w.x)
    (hroom : m.index.val + w.x.val + 1 ≤ 4096) :
    ((m.execute w).2 = .proceed ∧
      m.Stores (m.execute w).1 (m.registers.toList.take (w.x.val + 1))) ∧
    ((m.execute w').2 = .proceed ∧ m.Loads (m.execute w').1 w.x) ∧
    (∀ (requests : List (Request κ)) (m' : Machine κ), m' = requests.foldl obey (m.execute w).1 →
      m'.index = m.index →
      (∀ a, m.index.val ≤ a → a ≤ m.index.val + w.x.val →
        m'.memory.read a = (m.execute w).1.memory.read a) →
      (m'.execute w').2 = .proceed ∧
        ∀ r ≤ w.x, (m'.execute w').1.registers.get r = m.registers.get r) ∧
    (((m.execute w').1.execute w).2 = .proceed ∧
      ((m.execute w').1.execute w).1.memory = m.memory) ∧
    ∀ (m : Machine κ) (d : Word), d.family = 0xF ∧ d.nn = 0x33 → m.index.val ≤ 4093 →
      (m.execute d).2 = .proceed ∧ ((m.execute d).1.execute 0xF265).2 = .proceed ∧
        ((m.execute d).1.execute 0xF265).1.registers.Spells (m.registers.get d.x).toNat := by
  have hstores := m.execute_storeRegisters w hw hroom
  have hloads := m.execute_loadRegisters w' hw' (by rwa [hx])
  rw [hx] at hloads
  refine ⟨hstores, hloads, ?_, ?_, ?_⟩
  · rintro requests m' - hindex hbytes
    exact m.restores_after_store m' w w' hw hw' hx hroom hindex hbytes
  · have hindex : (m.execute w').1.index = m.index := congrArg (·.index) hloads.2.rest
    obtain ⟨hok, hstores'⟩ := (m.execute w').1.execute_storeRegisters w hw (by rwa [hindex])
    exact ⟨hok, hloads.2.memory_of_stores hstores'⟩
  · exact spells_after_decimal

/-- All sixteen registers in the last sixteen bytes. VF is changed meanwhile and comes back. -/
theorem registers_survive_in_memory_at_end :
    let m : Machine Script :=
      { bare [] with registers := ⟨Vector.replicate 16 0xAB⟩, index := 4080 }
    let m' := ((m.execute 0xFF55).1.execute 0x6F00).1
    m'.registers.flag = 0 ∧ (m'.execute 0xFF65).1.registers.flag = 0xAB ∧
      ((m.execute 0xFF33).1.execute 0xF265).1.registers.Spells 0xAB := by
  intro m m'
  obtain ⟨⟨-, hstores⟩, -, hrestores, -, hspells⟩ :=
    registers_survive_in_memory m 0xFF55 0xFF65 (by decide) (by decide) (by decide) (by decide)
  have hclears : ∀ m₁ : Machine Script, (m₁.execute 0x6F00).1 = m₁.assign 15 0 := by
    intro m₁
    rw [m₁.execute_of_covers 0x6F00 .setByte (show Word.family 0x6F00 = 6 by decide)]
    rfl
  have hm' : m' = (m.execute 0xFF55).1.assign 15 0 := hclears _
  refine ⟨?_, ?_, (hspells m 0xFF33 (by decide) (by decide)).2.2⟩
  · rw [hm']
    exact (Registers.get_set _ _ _ _).trans (if_pos rfl)
  · refine (hrestores [.execute 0x6F00] m' rfl ?_ ?_).2 15 (by decide)
    · rw [hm']
      exact congrArg (·.index) hstores.rest
    · intro a _ _
      rw [hm']
      rfl

end Machine

end Chip8
