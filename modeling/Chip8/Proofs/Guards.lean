import Chip8.Proofs.Control
import Chip8.Proofs.Pixels

/-!
# Guards

The machine's numbers carry their ranges in their types. Here the same instructions work on plain
numbers: every index, slice, copy, nibble and sum is checked where it is used, and a check that
fails stops the instruction. None of them fails, except that a timer can outrun the clock.
-/

namespace Chip8

/-- The check that failed. -/
inductive Panic where
  /-- No such register, byte, pixel or definition. -/
  | index
  /-- A part of an array that is not there. -/
  | slice
  /-- A copy over a part of another length. -/
  | length
  /-- A nibble above 15. -/
  | nibble
  /-- A sum that does not fit. -/
  | sum
  /-- A moment beyond the clock's range. -/
  | clock
  deriving DecidableEq

theorem Memory.clamped_eq_take (memory : Memory) (a len : Nat) :
    memory.clamped a len = (memory.bytes.toList.drop a).take len := by
  unfold clamped
  rw [Array.toList_extract, List.extract_eq_take_drop, Nat.add_sub_cancel_left]
  rfl

theorem Address.ofValue_ofNat (n : Nat) (h : n < UInt32.size) :
    ofValue (.ofNat n) = ⟨n % 4096, by omega⟩ := by
  unfold ofValue
  simp only [UInt32.toNat_ofNat_of_lt' h]

namespace Guarded

/-! ## Checked access -/

def element {α : Type} (as : List α) (i : Nat) : Except Panic α :=
  if h : i < as.length then .ok as[i] else .error .index

def slice {α : Type} (as : List α) (first last : Nat) : Except Panic (List α) :=
  if first ≤ last ∧ last ≤ as.length then .ok ((as.drop first).take (last - first))
  else .error .slice

def nibble (n : Nat) : Except Panic Nibble := if h : n < 16 then .ok ⟨n, h⟩ else .error .nibble

def sum (bound a b : Nat) : Except Panic Nat := if a + b < bound then .ok (a + b) else .error .sum

/-- The machine word of the host has 32 bits at least. -/
def add (a b : Nat) : Except Panic Nat := sum UInt32.size a b

theorem element_eq {α : Type} (as : List α) (i : Nat) (h : i < as.length) :
    element as i = .ok as[i] := dif_pos h

theorem slice_eq {α : Type} (as : List α) (first last : Nat) (h : first ≤ last)
    (hlast : last ≤ as.length) : slice as first last = .ok ((as.drop first).take (last - first)) :=
  if_pos ⟨h, hlast⟩

theorem nibble_eq (n : Nat) (h : n < 16) : nibble n = .ok ⟨n, h⟩ := dif_pos h

theorem sum_eq (bound a b : Nat) (h : a + b < bound) : sum bound a b = .ok (a + b) := if_pos h

theorem add_eq (a b : Nat) (ha : a < 65536) (hb : b < 65536) : add a b = .ok (a + b) := by
  apply sum_eq
  unfold UInt32.size
  omega

/-! ## Registers -/

def register (v : Registers) (i : Nat) : Except Panic UInt8 := element v.toList i

def setRegister (v : Registers) (i : Nat) (b : UInt8) : Except Panic Registers :=
  if h : i < 16 then .ok ⟨v.values.set i b⟩ else .error .index

def setFlag (v : Registers) (raised : Bool) : Except Panic Registers :=
  setRegister v 15 (if raised then 1 else 0)

def arithmetic (v : Registers) (x y : Nat) (op : Arithmetic) : Except Panic Registers := do
  let a ← register v x
  let b ← register v y
  match op with
  | .copy => setRegister v x b
  | .or => setRegister v x (a ||| b)
  | .and => setRegister v x (a &&& b)
  | .xor => setRegister v x (a ^^^ b)
  | .add => setFlag (← setRegister v x (a + b)) (256 ≤ a.toNat + b.toNat)
  | .sub => setFlag (← setRegister v x (a - b)) (a < b)
  | .subFrom => setFlag (← setRegister v x (b - a)) (a < b)
  | .shiftRight => setRegister (← setFlag v (b &&& 0x01 != 0)) x (b >>> 1)
  | .shiftLeft => setRegister (← setFlag v (b &&& 0x80 != 0)) x (b <<< 1)

/-- Stores the bytes in the registers from number `i` on. -/
def loadRegisters (v : Registers) (i : Nat) : List UInt8 → Except Panic Registers
  | [] => .ok v
  | b :: bs => do
    let x ← nibble i
    loadRegisters (← setRegister v x.val b) (i + 1) bs

theorem register_eq (v : Registers) (x : Nibble) : register v x.val = .ok (v.get x) := by
  unfold register Registers.toList
  rw [element_eq _ _ (by simp)]
  simp [Registers.get]

theorem setRegister_eq (v : Registers) (x : Nibble) (b : UInt8) :
    setRegister v x.val b = .ok (v.set x b) := dif_pos x.isLt

theorem setFlag_eq (v : Registers) (raised : Bool) :
    setFlag v raised = .ok (v.setFlag raised) := setRegister_eq v 15 _

theorem arithmetic_eq (v : Registers) (x y : Nibble) (op : Arithmetic) :
    arithmetic v x.val y.val op = .ok (Machine.arithmetic v x y op) := by
  unfold arithmetic
  rw [register_eq, register_eq]
  cases op <;> simp only [bind, Except.bind, setRegister_eq, setFlag_eq, Machine.arithmetic]

theorem get_loadRegisters (v : Registers) (i : Nat) (bs : List UInt8) (h : i + bs.length ≤ 16) :
    ∃ v', loadRegisters v i bs = .ok v' ∧
      ∀ r : Nibble, v'.get r = if i ≤ r.val then bs[r.val - i]?.getD (v.get r) else v.get r := by
  induction bs generalizing v i with
  | nil => exact ⟨v, rfl, by simp⟩
  | cons b bs ih =>
    rw [List.length_cons] at h
    obtain ⟨x, rfl⟩ : ∃ x : Nibble, x.val = i := ⟨⟨i, by omega⟩, rfl⟩
    obtain ⟨v', hload, hget⟩ := ih (v.set x b) (x.val + 1) (by omega)
    refine ⟨v', ?_, ?_⟩
    · rw [loadRegisters, nibble_eq x.val x.isLt]
      simp only [bind, Except.bind, setRegister_eq]
      exact hload
    · intro r
      rw [hget]
      rcases Nat.lt_trichotomy x.val r.val with hlt | heq | hgt
      · have hsucc : r.val - x.val = r.val - (x.val + 1) + 1 := by omega
        rw [if_pos (by omega), if_pos (by omega), hsucc, List.getElem?_cons_succ,
          v.get_set_of_ne x r b (by rintro rfl; omega)]
      · obtain rfl := Fin.ext heq
        rw [if_neg (by omega), if_pos (by omega), Registers.get_set, if_pos rfl]
        simp
      · rw [if_neg (by omega), if_neg (by omega), v.get_set_of_ne x r b (by rintro rfl; omega)]

theorem loadRegisters_eq (v : Registers) (bs : List UInt8) (h : bs.length ≤ 16) :
    loadRegisters v 0 bs = .ok (v.load bs) := by
  obtain ⟨v', hload, hget⟩ := get_loadRegisters v 0 bs (by omega)
  rw [hload, Except.ok.injEq]
  apply Registers.ext_get
  intro r
  rw [hget, Registers.get_load]
  simp

/-! ## Memory -/

def region (memory : Memory) (a len : Nat) : Except Panic (Except Fault (List UInt8)) := do
  let last ← add a len
  if last ≤ 4096 then return .ok (← slice memory.bytes.toList a last)
  else return .error (Memory.outside a)

/-- Copies bytes over a region of `len`. -/
def copy (memory : Memory) (a len : Nat) (bs : List UInt8) :
    Except Panic (Except Fault Memory) := do
  let last ← add a len
  if last ≤ 4096 then
    if bs.length = len then return .ok (memory.overwrite a bs) else throw .length
  else return .error (Memory.outside a)

def clamped (memory : Memory) (a len : Nat) : Except Panic (List UInt8) := do
  let first := min a 4096
  slice memory.bytes.toList first (min (← add first len) 4096)

def word (memory : Memory) (a : Nat) : Except Panic (Except Fault Word) := do
  match ← region memory a 2 with
  | .error fault => return .error fault
  | .ok bytes => return .ok (.ofBytes (← element bytes 0) (← element bytes 1))

theorem region_eq (memory : Memory) (a len : Nat) (ha : a < 65536) (hlen : len < 65536) :
    region memory a len = .ok (memory.region a len) := by
  unfold region Memory.region Memory.check Memory.size
  rw [add_eq a len ha hlen]
  by_cases hfit : a + len ≤ 4096
  · simp only [bind, Except.bind, if_pos hfit, Except.map, Memory.clamped_eq_take]
    rw [slice_eq _ _ _ (by omega) (by simpa using hfit), Nat.add_sub_cancel_left]
    rfl
  · simp only [bind, Except.bind, if_neg hfit, Except.map]
    rfl

theorem copy_eq (memory : Memory) (a : Nat) (bs : List UInt8) (ha : a < 65536)
    (hlen : bs.length < 65536) : copy memory a bs.length bs = .ok (memory.store a bs) := by
  unfold copy Memory.store Memory.check Memory.size
  rw [add_eq a bs.length ha hlen]
  by_cases hfit : a + bs.length ≤ 4096
  · simp only [bind, Except.bind, if_pos hfit, Except.map]
    rfl
  · simp only [bind, Except.bind, if_neg hfit, Except.map]
    rfl

theorem clamped_eq (memory : Memory) (a : Address) (n : Nibble) :
    clamped memory a.val n.val = .ok (memory.clamped a.val n.val) := by
  have ha := a.isLt
  have hn := n.isLt
  have hfirst : min a.val 4096 = a.val := by omega
  have hlast : min (a.val + n.val) 4096 ≤ memory.bytes.toList.length := by
    rw [Vector.length_toList]
    omega
  unfold clamped
  simp only [hfirst, add_eq a.val n.val (by omega) (by omega), bind, Except.bind,
    Memory.clamped_eq_take]
  rw [slice_eq _ _ _ (by omega) hlast, Except.ok.injEq, List.take_eq_take_iff, List.length_drop,
    Vector.length_toList]
  omega

theorem word_eq (memory : Memory) (a : UInt16) :
    word memory a.toNat = .ok (memory.word a.toNat) := by
  unfold word
  rw [region_eq memory a.toNat 2 a.toNat_lt (by decide)]
  unfold Memory.region Memory.check Memory.size Memory.word
  by_cases h : a.toNat + 2 ≤ 4096
  · have hlen : (memory.clamped a.toNat 2).length = 2 := by simp [Memory.clamped]; omega
    simp only [if_pos h, Except.map, dif_pos (by omega : a.toNat + 1 < 4096), bind, Except.bind]
    rw [element_eq _ 0 (by omega), element_eq _ 1 (by omega)]
    simp [Memory.clamped]
    rfl
  · simp only [if_neg h, Except.map, dif_neg (by omega : ¬ a.toNat + 1 < 4096), bind, Except.bind]
    rfl

/-! ## The screen -/

def flipPixel (s : Screen) (x y : Nat) : Except Panic (Screen × Bool) :=
  if x < 64 ∧ y < 32 then .ok (s.flipRow y (Screen.dot x)) else .error .index

/-- Flips the pixels of some columns of a sprite row. -/
def drawColumns (s : Screen) (x y : Nat) (b : UInt8) : List Nat → Except Panic (Screen × Bool)
  | [] => .ok (s, false)
  | c :: cs =>
    if b.toBitVec.getMsbD c then do
      let column ← add x c
      let (first, lit) ← flipPixel s (column % 64) (y % 32)
      let (all, litLater) ← drawColumns first x y b cs
      return (all, lit || litLater)
    else drawColumns s x y b cs

/-- Draws sprite rows from row number `row` of the sprite on. -/
def drawRows (s : Screen) (x y row : Nat) : List UInt8 → Except Panic (Screen × Bool)
  | [] => .ok (s, false)
  | b :: bs => do
    let (above, erased) ← drawColumns s x (← add y row) b (List.range 8)
    let (all, erasedBelow) ← drawRows above x y (row + 1) bs
    return (all, erased || erasedBelow)

theorem drawColumns_eq (s : Screen) (x : UInt8) (y : Nat) (b : UInt8) (cs : List Nat)
    (hnodup : cs.Nodup) (hcs : ∀ c ∈ cs, c < 64) :
    drawColumns s x.toNat y b cs = .ok (s.flipRow y (Screen.dots x.toNat b cs)) := by
  induction cs generalizing s with
  | nil => rw [drawColumns, Screen.dots, Screen.flipRow_zero]
  | cons c cs ih =>
    have hmeet := Screen.dot_and_dots x.toNat b c cs (hcs c (by simp)) hnodup
      fun c' hc' => hcs c' (by simp [hc'])
    rw [List.nodup_cons] at hnodup
    rw [List.forall_mem_cons] at hcs
    rw [drawColumns, Screen.dots]
    split_ifs with hb
    · have hx := x.toNat_lt
      have hcolumn : (x.toNat + c) % 64 < 64 := Nat.mod_lt _ (by decide)
      have hy : y % 32 < 32 := Nat.mod_lt _ (by decide)
      rw [add_eq x.toNat c (by omega) (by omega), Screen.flipRow_xor s y _ _ hmeet]
      simp only [bind, Except.bind]
      rw [flipPixel, if_pos ⟨hcolumn, hy⟩, Screen.flipRow_mod]
      simp only [ih _ hnodup.2 hcs.2]
      rfl
    · rw [ih s hnodup.2 hcs.2]
      simp

theorem drawRows_eq (s : Screen) (x y : UInt8) (row : Nat) (bs : List UInt8)
    (h : row + bs.length ≤ 15) :
    drawRows s x.toNat y.toNat row bs = .ok (s.drawRows x.toNat (y.toNat + row) bs) := by
  induction bs generalizing s row with
  | nil => rfl
  | cons b bs ih =>
    rw [List.length_cons] at h
    have hy := y.toNat_lt
    have hcs : ∀ c ∈ List.range 8, c < 64 := by decide
    rw [drawRows, add_eq y.toNat row (by omega) (by omega)]
    simp only [bind, Except.bind]
    rw [drawColumns_eq s x _ b _ List.nodup_range hcs, ← Screen.stripe_eq_dots]
    simp only [ih _ (row + 1) (by omega)]
    rfl

/-! ## Timers -/

/-- A span of time stays below 2⁶⁴ seconds, and a moment below the clock's horizon. -/
def setTimer (t : Timer) (ticks now : Nat) : Except Panic Timer := do
  let span := t.period * ticks
  if Number.pow2 64 * Duration.second ≤ span then throw .clock
  if Timer.horizon ≤ now + span then throw .clock
  return { t with target := some (now + span) }

theorem setTimer_eq (t : Timer) (ticks now : Nat) :
    setTimer t ticks now = (t.set? ticks now).elim (.error .clock) .ok := by
  have hlimit : Timer.horizon ≤ Number.pow2 64 * Duration.second := by decide
  unfold setTimer Timer.set?
  by_cases h : now + t.period * ticks < Timer.horizon
  · simp only [if_pos h, if_neg (by omega : ¬ Timer.horizon ≤ now + t.period * ticks),
      if_neg (by omega : ¬ Number.pow2 64 * Duration.second ≤ t.period * ticks)]
    rfl
  · simp only [if_neg h, if_pos (by omega : Timer.horizon ≤ now + t.period * ticks)]
    split_ifs <;> rfl

/-! ## Dispatch -/

/-- The first definition among those with the given indices that responds to the word. -/
def find (definitions : List Definition) (w : Word) : List Nat → Except Panic (Option Definition)
  | [] => .ok none
  | i :: is => do
    let definition ← element definitions i
    if definition.respondsTo w then return some definition else find definitions w is

def lookup (t : Table) (w : Word) : Except Panic (Option Definition) := do
  find t.definitions.toList w (← element t.families.toList (w.toNat / 4096))

theorem find_eq (definitions : Array Definition) (w : Word) (is : List Nat)
    (h : ∀ i ∈ is, i < definitions.size) :
    find definitions.toList w is =
      .ok (is.findSome? fun i => definitions[i]?.filter (·.respondsTo w)) := by
  induction is with
  | nil => rfl
  | cons i is ih =>
    rw [List.forall_mem_cons] at h
    have hi : i < definitions.toList.length := h.1
    rw [find, element_eq _ _ hi, List.findSome?_cons]
    simp only [bind, Except.bind, ih h.2]
    by_cases hr : definitions[i].respondsTo w = true
    · simp [h.1, hr, Option.filter]
      rfl
    · simp [h.1, hr, Option.filter]

theorem lookup_eq (ds : List Definition) (w : Word) :
    lookup (.ofList ds) w = .ok ((Table.ofList ds).lookup w) := by
  have hw := w.toNat_lt
  have hfamily : w.family.val = w.toNat / 4096 := by simp only [Word.family]; omega
  have hindices : ∀ i ∈ (Table.ofList ds).families.get w.family,
      i < (Table.ofList ds).definitions.size := by
    intro i hi
    rw [Table.families_ofList] at hi
    simpa [Table.ofList] using Table.indices_lt ds w.family i hi
  unfold lookup Table.lookup
  rw [← hfamily, element_eq _ _ (by simp)]
  simp only [bind, Except.bind]
  exact find_eq _ w _ hindices

/-! ## Instructions -/

variable {κ : Type}

/-- Replaces `len` bytes from I on. -/
def store (m : Machine κ) (len : Nat) (bs : List UInt8) : Except Panic (Machine κ × Outcome) := do
  return m.attempt (← copy m.memory m.index.val len bs) fun memory => { m with memory }.advance

/-- Sets VX and moves on. -/
def assign (m : Machine κ) (x : Nat) (b : UInt8) : Except Panic (Machine κ × Outcome) := do
  return ({ m with registers := ← setRegister m.registers x b }.advance, .proceed)

theorem store_eq (m : Machine κ) (len : Nat) (bs : List UInt8) (h : bs.length = len)
    (hlen : len ≤ 16) : store m len bs = .ok (m.storeAtIndex bs) := by
  subst h
  have hindex := m.index.isLt
  unfold store
  rw [copy_eq m.memory m.index.val bs (by omega) (by omega)]
  unfold Machine.storeAtIndex Memory.store
  cases Memory.check m.index.val bs.length <;> rfl

theorem assign_eq (m : Machine κ) (x : Nibble) (b : UInt8) :
    assign m x.val b = .ok (m.assign x b, .proceed) := by
  unfold assign
  rw [setRegister_eq]
  rfl

variable [Keypad κ]

def perform (m : Machine κ) (w : Word) (op : Operation) : Except Panic (Machine κ × Outcome) := do
  let vx ← register m.registers w.x.val
  let vy ← register m.registers w.y.val
  match op with
  | .jumpOffset =>
    let offset ← register m.registers 0
    let pc ← sum UInt16.size w.nnn.toNat offset.toNat
    return ({ m with pc := .ofNat pc }, .proceed)
  | .skipIfByte => return (m.skip (vx == w.nn), .proceed)
  | .skipUnlessByte => return (m.skip (vx != w.nn), .proceed)
  | .skipIfSame => return (m.skip (vx == vy), .proceed)
  | .skipUnlessSame => return (m.skip (vx != vy), .proceed)
  | .setByte => assign m w.x.val w.nn
  | .addByte =>
    let total ← add vx.toNat w.nn.toNat
    assign m w.x.val (.ofNat total)
  | .arithmetic op =>
    let registers ← arithmetic m.registers w.x.val w.y.val op
    return ({ m with registers }.advance, .proceed)
  | .addIndex =>
    let total ← add m.index.val vx.toNat
    return ({ m with index := .ofValue (.ofNat total) }.advance, .proceed)
  | .random =>
    let (b, random) := m.random.draw
    assign { m with random } w.x.val (b &&& w.nn)
  | .draw =>
    let sprite ← clamped m.memory m.index.val w.n.val
    let (screen, erased) ← drawRows m.screen vx.toNat vy.toNat 0 (sprite.take 15)
    let registers ← setFlag m.registers erased
    return ({ m with screen, registers }.advance, .wait)
  | .skipIfKey =>
    let (key, keypad) := Keypad.read m.keypad
    return ({ m with keypad }.skip (key.any fun k => Nibble.toByte k == vx), .proceed)
  | .skipUnlessKey =>
    let (key, keypad) := Keypad.read m.keypad
    return ({ m with keypad }.skip !(key.any fun k => Nibble.toByte k == vx), .proceed)
  | .awaitKey =>
    match Keypad.read m.keypad with
    | (some key, keypad) => assign { m with keypad } w.x.val key.toByte
    | (none, keypad) => return ({ m with keypad }, .wait)
  | .readDelay => assign m w.x.val m.delayNow
  | .setDelay =>
    let delay ← setTimer m.delay vx.toNat m.now
    return ({ m with delay }.advance, .proceed)
  | .setSound =>
    let sound ← setTimer m.sound vx.toNat m.now
    return ({ m with sound }.advance, .proceed)
  | .glyph =>
    let address := Memory.glyphAddress (.low vx)
    return ({ m with index := .ofValue (.ofNat address) }.advance, .proceed)
  | .decimal => store m 3 (Machine.decimalDigits vx)
  | .storeRegisters =>
    let count ← add w.x.val 1
    store m count (← slice m.registers.toList 0 count)
  | .loadRegisters =>
    let count ← add w.x.val 1
    match ← region m.memory m.index.val count with
    | .error fault => return (m, .failed fault)
    | .ok bytes =>
      let registers ← loadRegisters m.registers 0 bytes
      return ({ m with registers }.advance, .proceed)
  -- The others read no register and reach into no array.
  | _ => return m.perform w op

def execute (m : Machine κ) (w : Word) : Except Panic (Machine κ × Outcome) := do
  match ← lookup Table.standard w with
  | some definition => perform m w definition.operation
  | none => return (m, .failed (.unsupported w m.pc))

def step (m : Machine κ) : Except Panic (Machine κ × Outcome) := do
  match ← word m.memory m.pc.toNat with
  | .ok w => execute m w
  | .error fault => return (m, .failed fault)

/-! ## Nothing fails but the clock -/

/-- The result of the machine itself, with an overflow as the panic that it is. -/
def settle (result : Machine κ × Outcome) : Except Panic (Machine κ × Outcome) :=
  if result.2 = .overflow then .error .clock else .ok result

theorem settle_perform (m : Machine κ) (w : Word) (op : Operation) (h : ¬ m.Overflows w op) :
    settle (m.perform w op) = .ok (m.perform w op) :=
  if_neg fun ho => h ((m.perform_overflow_iff w op).mp ho)

omit [Keypad κ] in
theorem settle_set (m : Machine κ) (t : Timer) (ticks : Nat) (next : Timer → Machine κ) :
    (setTimer t ticks m.now).bind (fun t => .ok (next t, .proceed)) =
      settle (match t.set? ticks m.now with
        | some t => (next t, .proceed)
        | none => (m, .overflow)) := by
  rw [setTimer_eq]
  cases t.set? ticks m.now <;> rfl

theorem perform_eq (m : Machine κ) (w : Word) (op : Operation) :
    perform m w op = settle (m.perform w op) := by
  have hx := w.x.isLt
  have hvx := (m.registers.get w.x).toNat_lt
  have hindex := m.index.isLt
  have hcount := add_eq w.x.val 1 (by omega) (by decide)
  unfold perform
  simp only [register_eq, bind, Except.bind]
  cases op
  case setDelay => exact settle_set m m.delay _ fun delay => { m with delay }.advance
  case setSound => exact settle_set m m.sound _ fun sound => { m with sound }.advance
  all_goals rw [settle_perform m w _ id]
  case jumpOffset =>
    have hpc := w.toNat_nnn_add (m.registers.get 0)
    have hsum : w.nnn.toNat + (m.registers.get 0).toNat < UInt16.size := by
      rw [← hpc]
      exact UInt16.toNat_lt_size _
    have hzero : register m.registers 0 = .ok (m.registers.get 0) := register_eq m.registers 0
    simp only [hzero, sum_eq _ _ _ hsum, ← hpc, UInt16.ofNat_toNat]
    rfl
  case setByte => exact assign_eq m w.x w.nn
  case addByte =>
    have hnn := w.nn.toNat_lt
    have hsum := add_eq (m.registers.get w.x).toNat w.nn.toNat (by omega) (by omega)
    simp only [hsum, assign_eq, UInt8.ofNat_add, UInt8.ofNat_toNat]
    rfl
  case arithmetic op =>
    simp only [arithmetic_eq]
    rfl
  case addIndex =>
    have hsum := add_eq m.index.val (m.registers.get w.x).toNat (by omega) (by omega)
    have hfit : m.index.val + (m.registers.get w.x).toNat < UInt32.size := by
      unfold UInt32.size
      omega
    simp only [hsum, Address.ofValue_ofNat _ hfit]
    rfl
  case random => exact assign_eq { m with random := m.random.next } w.x _
  case draw =>
    have hrows : 0 + ((m.memory.clamped m.index.val w.n.val).take 15).length ≤ 15 := by
      rw [Nat.zero_add]
      exact List.length_take_le _ _
    simp only [clamped_eq, drawRows_eq _ _ _ 0 _ hrows, setFlag_eq]
    rfl
  case awaitKey =>
    unfold Machine.perform Machine.awaitKey
    rcases Keypad.read m.keypad with ⟨_ | key, keypad⟩
    · rfl
    · exact assign_eq { m with keypad } w.x key.toByte
  case readDelay => exact assign_eq m w.x m.delayNow
  case glyph =>
    have hfit : Memory.glyphAddress (.low (m.registers.get w.x)) < UInt32.size := by
      unfold Memory.glyphAddress UInt32.size
      omega
    simp only [Address.ofValue_ofNat _ hfit]
    rfl
  case decimal => exact store_eq m 3 _ rfl (by omega)
  case storeRegisters =>
    have hslice : w.x.val + 1 ≤ m.registers.toList.length := by
      rw [Registers.toList, Vector.length_toList]
      exact hx
    simp only [hcount, slice_eq _ _ _ (Nat.zero_le _) hslice, List.drop_zero, Nat.sub_zero]
    exact store_eq m _ _ (m.registers.length_take w.x) hx
  case loadRegisters =>
    have hread := region_eq m.memory m.index.val (w.x.val + 1) (by omega) (by omega)
    simp only [hcount, hread]
    unfold Machine.perform
    cases hregion : m.memory.region m.index.val (w.x.val + 1) with
    | error fault => rfl
    | ok bytes =>
      have hlen := Memory.length_region hregion
      simp only [loadRegisters_eq m.registers bytes (by omega)]
      rfl
  all_goals rfl

theorem execute_eq (m : Machine κ) (w : Word) : execute m w = settle (m.execute w) := by
  unfold execute Machine.execute
  rw [Table.standard, lookup_eq]
  simp only [bind, Except.bind]
  cases (Table.ofList instructionSet).lookup w with
  | none => rfl
  | some definition => exact perform_eq m w definition.operation

theorem step_eq (m : Machine κ) : step m = settle m.step := by
  unfold step Machine.step Machine.fetch
  rw [word_eq]
  simp only [bind, Except.bind]
  cases m.memory.word m.pc.toNat with
  | error fault => rfl
  | ok w => exact execute_eq m w

omit [Keypad κ] in
theorem settle_eq_error_iff (result : Machine κ × Outcome) (panic : Panic) :
    settle result = .error panic ↔ panic = .clock ∧ result.2 = .overflow := by
  unfold settle
  split_ifs with h
  · simp [h, eq_comm]
  · simp [h]

omit [Keypad κ] in
theorem settle_eq_ok_iff (result result' : Machine κ × Outcome) :
    settle result = .ok result' ↔ result.2 ≠ .overflow ∧ result' = result := by
  unfold settle
  split_ifs with h
  · simp [h]
  · simp [h, eq_comm]

end Guarded

namespace Machine

variable {κ : Type}

/-- The word is FX15 or FX18 and VX periods from now is beyond the clock's range. -/
def OutrunsClock (m : Machine κ) (w : Word) : Prop :=
  w.family = 0xF ∧
    (w.nn = 0x15 ∧ Timer.horizon ≤ m.now + m.delay.period * (m.registers.get w.x).toNat ∨
      w.nn = 0x18 ∧ Timer.horizon ≤ m.now + m.sound.period * (m.registers.get w.x).toNat)

theorem overflows_iff (m : Machine κ) (w : Word) :
    (∃ op : Operation, op.Covers w ∧ m.Overflows w op) ↔ m.OutrunsClock w := by
  constructor
  · rintro ⟨op, hc, ho⟩
    cases op
    case setDelay => exact ⟨hc.1, .inl ⟨hc.2, ho⟩⟩
    case setSound => exact ⟨hc.1, .inr ⟨hc.2, ho⟩⟩
    all_goals cases ho
  · rintro ⟨hF, ⟨hn, ho⟩ | ⟨hn, ho⟩⟩
    · exact ⟨.setDelay, ⟨hF, hn⟩, ho⟩
    · exact ⟨.setSound, ⟨hF, hn⟩, ho⟩

variable [Keypad κ]

theorem execute_overflow_iff (m : Machine κ) (w : Word) :
    (m.execute w).2 = .overflow ↔ m.OutrunsClock w := by
  rw [← overflows_iff]
  constructor
  · intro h
    cases hop : w.operation? with
    | none => simp [execute_eq, hop] at h
    | some op =>
      have hc := w.covers_of_operation? op hop
      rw [m.execute_of_covers w op hc] at h
      exact ⟨op, hc, (m.perform_overflow_iff w op).mp h⟩
  · rintro ⟨op, hc, ho⟩
    rw [m.execute_of_covers w op hc]
    exact (m.perform_overflow_iff w op).mpr ho

theorem step_overflow_iff_reads (m : Machine κ) :
    m.step.2 = .overflow ↔ ∃ w, m.Reads w ∧ m.OutrunsClock w := by
  rw [step_overflow_iff]
  simp only [← overflows_iff, exists_and_left]

/-- **Nothing panics but the clock.** With every index, slice, copy, nibble and sum checked, a word
does what the machine does with it. The one panic is that of FX15 and FX18 when VX periods from now
the clock has run out. -/
theorem panics_only_past_clock (m : Machine κ) :
    (∀ w panic, Guarded.execute m w = .error panic ↔ panic = .clock ∧ m.OutrunsClock w) ∧
    (∀ w result, Guarded.execute m w = .ok result ↔ ¬ m.OutrunsClock w ∧ result = m.execute w) ∧
    (∀ panic, Guarded.step m = .error panic ↔
      panic = .clock ∧ ∃ w, m.Reads w ∧ m.OutrunsClock w) ∧
    (∀ result, Guarded.step m = .ok result ↔
      (¬ ∃ w, m.Reads w ∧ m.OutrunsClock w) ∧ result = m.step) := by
  refine ⟨?_, ?_, ?_, ?_⟩
  · intro w panic
    rw [Guarded.execute_eq, Guarded.settle_eq_error_iff, execute_overflow_iff]
  · intro w result
    rw [Guarded.execute_eq, Guarded.settle_eq_ok_iff, Ne, execute_overflow_iff]
  · intro panic
    rw [Guarded.step_eq, Guarded.settle_eq_error_iff, step_overflow_iff_reads]
  · intro result
    rw [Guarded.step_eq, Guarded.settle_eq_ok_iff, Ne, step_overflow_iff_reads]

end Machine

end Chip8
