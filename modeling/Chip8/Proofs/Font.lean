import Chip8.Proofs.History
import Chip8.Proofs.Images
import Chip8.Proofs.SpriteWords

/-!
# The font

The glyphs of the digits lie in the lowest eighty bytes of memory. Programs are loaded above them,
and the two instructions that store start at I and go upwards, so the glyphs last as long as no store
starts among them. Until then FX29 and a drawing of five rows show the digit in VX.
-/

namespace Chip8

/-- The five rows of a digit. -/
def glyph (digit : Nat) : List UInt8 := (font.drop (5 * digit)).take 5

theorem length_font : font.length = 80 := rfl

theorem getElem?_glyph (digit : Nat) {k : Nat} (hk : k < 5) :
    (glyph digit)[k]? = font[5 * digit + k]? := by
  rw [glyph, List.getElem?_take_of_lt hk, List.getElem?_drop]

namespace Memory

/-! ## Glyphs in memory -/

/-- The font lies at the bottom of memory. -/
def HasFont (m : Memory) : Prop := ∀ k b, font[k]? = some b → m.read k = .ok b

theorem hasFont_fresh : fresh.HasFont := by
  intro k b hb
  have hk : k < 4096 := by
    have := (List.getElem?_eq_some_iff.mp hb).1
    rw [length_font] at this
    omega
  rw [read_of_lt _ hk]
  simp [fresh, List.getD_eq_getElem?_getD, hb]

theorem HasFont.congr {m m' : Memory} (h : m.HasFont)
    (hsame : ∀ a < 80, m'.read a = m.read a) : m'.HasFont := by
  intro k b hb
  rw [hsame k (List.getElem?_eq_some_iff.mp hb).1, h k b hb]

theorem HasFont.region_glyph {m : Memory} (h : m.HasFont) {digit : Nat} (hd : digit < 16) :
    m.region (5 * digit) 5 = .ok (glyph digit) := by
  rw [m.region_eq_ok_iff (by omega)]
  apply List.ext_getElem?
  intro k
  rcases Nat.lt_or_ge k 5 with hk | hk
  · have hlt : 5 * digit + k < font.length := by
      rw [length_font]
      omega
    have hb := List.getElem?_eq_getElem hlt
    rw [List.getElem?_map, getElem?_glyph digit hk, hb]
    simp [reads, hk, h _ _ hb]
  · rw [List.getElem?_eq_none, List.getElem?_eq_none]
    · simp [glyph]
      omega
    · simp [reads, hk]

end Memory

namespace Machine

variable {κ : Type}

/-! ## Glyphs throughout a run -/

/-- The next instruction is no store that starts among the glyphs. -/
def SparesFont (m : Machine κ) : Prop :=
  ∀ w, m.Reads w → w.family = 0xF → w.nn = 0x33 ∨ w.nn = 0x55 → 80 ≤ m.index.val

variable [Keypad κ]

theorem read_step_of_spares {m : Machine κ} (h : m.SparesFont) {a : Nat} (ha : a < 80) :
    m.step.1.memory.read a = m.memory.read a := by
  rcases m.step_state with hsame | hok
  · rw [hsame]
  · obtain ⟨w, op, hreads, hc, hstep⟩ := m.step_succeeds hok
    rw [hstep] at hok ⊢
    have ha' : a < 4096 := by omega
    rw [Memory.read_of_lt _ ha', Memory.read_of_lt _ ha', Except.ok.injEq]
    -- A byte that changes lies at I or above.
    by_contra hne
    obtain ⟨hf, hlow, hstore⟩ := (m.touches_perform w op hc hok).memory a ha' hne
    have hspares := h w hreads hf (hstore.imp And.left And.left)
    omega

theorem hasFont_run {m : Machine κ} (hm : m.memory.HasFont) {hosts : List (Host κ)}
    (h : ∀ v ∈ m.visits hosts, v.SparesFont) : (m.run hosts).memory.HasFont := by
  induction hosts generalizing m with
  | nil => exact hm
  | cons host hosts ih =>
    rw [visits, List.forall_mem_cons] at h
    apply ih _ h.2
    apply hm.congr
    intro a ha
    exact read_step_of_spares h.1 ha

omit [Keypad κ] in
theorem hasFont_load {m : Machine κ} (hm : m.memory.HasFont) (rom : List UInt8) :
    (m.load rom).1.memory.HasFont := by
  rw [load_eq]
  apply hm.congr
  intro a ha
  exact m.memory.read_after_below rom (by omega)

/-! ## Showing a digit -/

theorem execute_glyph (m : Machine κ) (w : Word) (hw : w.family = 0xF ∧ w.nn = 0x29) :
    ∃ index : Address, index.val = 5 * ((m.registers.get w.x).toNat % 16) ∧
      m.execute w = ({ m with index }.advance, .proceed) := by
  refine ⟨Fin.ofNat 4096 (Memory.glyphAddress (.low (m.registers.get w.x))), ?_,
    m.execute_of_covers w .glyph hw⟩
  apply Nat.mod_eq_of_lt
  unfold Memory.glyphAddress
  omega

omit [Keypad κ] in
theorem sprite_of_region {m : Machine κ} {n : Nibble} {bs : List UInt8}
    (h : m.memory.region m.index.val n.val = .ok bs) : m.sprite n = bs := by
  rw [Memory.region_eq_ite] at h
  split_ifs at h
  rw [sprite, ← Memory.clamped_eq_between]
  exact Except.ok.inj h

/-- FX29 has pointed I at the glyph of VX, and DPQ5 has drawn it at VP and VQ. -/
structure ShowsDigit (m pointed drawn : Machine κ) (w d : Word) : Prop where
  rows : pointed.memory.region pointed.index.val 5 =
    .ok (glyph ((m.registers.get w.x).toNat % 16))
  pixels : ∀ (px : Fin 64) (py : Fin 32), drawn.screen.pixel px py ≠ m.screen.pixel px py ↔
    Screen.Hits (m.registers.get d.x) (m.registers.get d.y)
      (glyph ((m.registers.get w.x).toNat % 16)) px py

theorem showsDigit_of_hasFont {m : Machine κ} (hm : m.memory.HasFont) {w d : Word}
    (hw : w.family = 0xF ∧ w.nn = 0x29) (hd : d.family = 0xD ∧ d.n = 5) (host : Host κ) :
    (m.execute w).2 = .proceed ∧ (((m.execute w).1.hosted host).execute d).2 = .wait ∧
      m.ShowsDigit (m.execute w).1 (((m.execute w).1.hosted host).execute d).1 w d := by
  obtain ⟨index, hindex, hexecute⟩ := m.execute_glyph w hw
  have hrows : m.memory.region index.val 5 = .ok (glyph ((m.registers.get w.x).toNat % 16)) := by
    rw [hindex]
    exact hm.region_glyph (Nat.mod_lt _ (by decide))
  rw [hexecute, execute_draw _ d hd.1]
  refine ⟨rfl, rfl, hrows, ?_⟩
  intro px py
  have hpixels := (({ m with index }.advance.hosted host).draws_drawSprite d).pixels px py
  rw [hd.2, sprite_of_region hrows] at hpixels
  rw [hd.2]
  exact hpixels

/-- **The font.** In every state of a run from a new machine, with any program, any random bytes and
no FX33 or FX55 made while I is below 80, FX29 leaves the five rows of the digit in VX at I, and DPQ5
after it flips the pixels that those rows hit. -/
theorem glyph_word_shows_digit (settings : Settings) (keypad : κ) (entropy : UInt64)
    (random : Random) (fresh : Machine κ) (hnew : new? settings keypad entropy = some fresh)
    (rom : List UInt8) (hosts : List (Host κ)) (start : Machine κ)
    (hstart : start = ({ fresh with random }.load rom).1)
    (hspares : ∀ v ∈ start.visits hosts, v.SparesFont) (host host' : Host κ) (m : Machine κ)
    (hm : m = (start.run hosts).hosted host) (w d : Word) (hw : w.family = 0xF ∧ w.nn = 0x29)
    (hd : d.family = 0xD ∧ d.n = 5) :
    (m.execute w).2 = .proceed ∧ (((m.execute w).1.hosted host').execute d).2 = .wait ∧
      m.ShowsDigit (m.execute w).1 (((m.execute w).1.hosted host').execute d).1 w d := by
  obtain ⟨period, _, rfl⟩ := Option.map_eq_some_iff.mp hnew
  have hfont : start.memory.HasFont := by
    rw [hstart]
    apply hasFont_load
    exact Memory.hasFont_fresh
  apply showsDigit_of_hasFont _ hw hd
  rw [hm]
  exact hasFont_run hfont hspares

/-- A run that stores V0 right above the font, and then the digit 0 in the upper left corner. -/
theorem glyph_word_shows_digit_zero :
    ∃ (host : Host Script) (start m : Machine Script),
      start = ((switchedOn 0).load [0xA0, 0x50, 0xF0, 0x55]).1 ∧
      m = (start.run [host, host]).hosted host ∧
      (m.execute 0xF029).1.memory.region (m.execute 0xF029).1.index.val 5 =
        .ok [0xF0, 0x90, 0x90, 0x90, 0xF0] ∧
      (((m.execute 0xF029).1.hosted host).execute 0xD015).1.screen.pixel 0 0 ≠
        m.screen.pixel 0 0 := by
  let host : Host Script := ⟨0, {}⟩
  obtain ⟨start, hstart⟩ : ∃ start, start = ((switchedOn 0).load [0xA0, 0x50, 0xF0, 0x55]).1 :=
    ⟨_, rfl⟩
  have hload : start =
      { switchedOn 0 with memory := Memory.fresh.after [0xA0, 0x50, 0xF0, 0x55] } := by
    rw [hstart, load_eq]
    rfl
  have hmemory : start.memory = Memory.fresh.after [0xA0, 0x50, 0xF0, 0x55] := by rw [hload]
  have hpc : start.pc = 0x200 := by rw [hload]; rfl
  have hzero : start.registers = .zero := by rw [hload]; rfl
  -- A050, after which F055 may store at 80.
  have hfirst : (start.hosted host).Reads 0xA050 :=
    reads_of_image hmemory (by decide) (k := 0) (by simp [hpc]) rfl rfl
  obtain ⟨next, hnext⟩ : ∃ next, next = (start.hosted host).step.1.hosted host := ⟨_, rfl⟩
  have hstep : next = { start.hosted host with index := 80, pc := 0x202 } := by
    rw [hnext, step_of_reads _ _ hfirst,
      execute_of_covers _ _ .setIndex (show Word.family 0xA050 = 0xA by decide)]
    simp [perform, advance, hosted, hpc, Address.ofValue]
    rfl
  have hkept : next.memory = Memory.fresh.after [0xA0, 0x50, 0xF0, 0x55] := by
    rw [hstep]
    exact hmemory
  have hsecond : next.Reads 0xF055 :=
    reads_of_image hkept (by decide) (k := 2) (by rw [hstep]; rfl) rfl rfl
  have hspares : ∀ v ∈ start.visits [host, host], v.SparesFont := by
    simp only [visits, List.forall_mem_cons, ← hnext]
    refine ⟨?_, ?_, by simp⟩
    · intro w hw _ hstore
      rw [hw.unique hfirst] at hstore
      exact absurd hstore (by decide)
    · rw [hstep]
      exact fun _ _ _ _ => Nat.le_refl 80
  have hregisters : ((start.run [host, host]).hosted host).registers = .zero := by
    show ((start.hosted host).step.1.hosted host).step.1.registers = .zero
    rw [← hnext, step_of_reads _ _ hsecond,
      execute_of_covers _ _ .storeRegisters ⟨by decide, by decide⟩,
      next.perform_same 0xF055 .storeRegisters .registers (by decide), hstep]
    exact hzero
  obtain ⟨-, -, hrows, hpixels⟩ := glyph_word_shows_digit { seed := some 0 } {} 0
    (switchedOn 0).random (switchedOn 0) (new?_switchedOn 0) [0xA0, 0x50, 0xF0, 0x55] [host, host]
    start hstart hspares host host _ rfl 0xF029 0xD015 (by decide) (by decide)
  rw [hregisters] at hrows hpixels
  refine ⟨host, start, _, hstart, rfl, hrows, (hpixels 0 0).mpr ?_⟩
  exact ⟨0, 0, by decide, by decide, by decide, by decide, by decide⟩

end Machine

end Chip8
