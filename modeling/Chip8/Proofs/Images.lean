import Chip8.Proofs.Regions

/-!
# Images over each other

A program is copied in at 0x200 and what was there above its end stays, so several programs loaded
one after the other lie over each other like sheets: each byte is that of the last one that reaches
so far. One that is too long is refused and leaves no trace.
-/

namespace Chip8

namespace Memory

theorem load_eq_ite (m : Memory) (rom : List UInt8) :
    m.load rom = if rom.length ≤ 3584 then .ok (m.overwrite 0x200 rom)
      else .error (.romTooLarge rom.length 3584) := rfl

/-! ## One image -/

theorem read_overwrite_below (m : Memory) {a i : Nat} (bs : List UInt8) (h : i < a) :
    (m.overwrite a bs).read i = m.read i := by
  unfold read
  split
  · rename_i hi
    rw [m.overwrite_outside a bs i hi (.inl h)]
  · rfl

theorem read_overwrite_add (m : Memory) (a k : Nat) {bs : List UInt8} (h : a + bs.length ≤ 4096) :
    (m.overwrite a bs).read (a + k) = (bs[k]?).elim (m.read (a + k)) .ok := by
  unfold read
  split
  · rename_i hk
    rw [m.getElem_overwrite a bs (a + k) hk, if_pos (Nat.le_add_right a k), Nat.add_sub_cancel_left]
    cases bs[k]? <;> rfl
  · rw [List.getElem?_eq_none (by omega)]
    rfl

/-- The memory after a load, whether it was refused or not. -/
def after (m : Memory) (rom : List UInt8) : Memory := (m.settle (m.load rom)).1

theorem after_of_le (m : Memory) {rom : List UInt8} (h : rom.length ≤ 3584) :
    m.after rom = m.overwrite 0x200 rom := by
  unfold after
  rw [load_eq_ite, if_pos h]
  rfl

theorem after_of_lt (m : Memory) {rom : List UInt8} (h : 3584 < rom.length) : m.after rom = m := by
  unfold after
  rw [load_eq_ite, if_neg (Nat.not_le_of_lt h)]
  rfl

theorem read_after_below (m : Memory) (rom : List UInt8) {a : Nat} (h : a < 0x200) :
    (m.after rom).read a = m.read a := by
  rcases Nat.lt_or_ge 3584 rom.length with hlong | hfits
  · rw [m.after_of_lt hlong]
  · rw [m.after_of_le hfits, m.read_overwrite_below rom h]

theorem read_after_short (m : Memory) {rom : List UInt8} {j : Nat}
    (h : rom.length ≤ 3584 → rom.length ≤ j) :
    (m.after rom).read (0x200 + j) = m.read (0x200 + j) := by
  rcases Nat.lt_or_ge 3584 rom.length with hlong | hfits
  · rw [m.after_of_lt hlong]
  · rw [m.after_of_le hfits, m.read_overwrite_add 0x200 j (by omega),
      List.getElem?_eq_none (h hfits)]
    rfl

theorem read_after_of_getElem? (m : Memory) {rom : List UInt8} {j : Nat} {b : UInt8}
    (h : rom.length ≤ 3584) (hb : rom[j]? = some b) : (m.after rom).read (0x200 + j) = .ok b := by
  rw [m.after_of_le h, m.read_overwrite_add 0x200 j (by omega), hb]
  rfl

/-! ## One image after the other -/

/-- The memory after several loads, and what each of them answered. -/
def loads (m : Memory) : List (List UInt8) → Memory × List (Option Fault)
  | [] => (m, [])
  | rom :: roms =>
    let (changed, answer) := m.settle (m.load rom)
    let (final, answers) := changed.loads roms
    (final, answer :: answers)

theorem fst_loads (m : Memory) (roms : List (List UInt8)) :
    (m.loads roms).1 = roms.foldl after m := by
  induction roms generalizing m with
  | nil => rfl
  | cons rom roms ih => exact ih (m.after rom)

theorem snd_loads (m : Memory) (roms : List (List UInt8)) :
    (m.loads roms).2 = roms.map fun rom =>
      if rom.length ≤ 3584 then none else some (.romTooLarge rom.length 3584) := by
  induction roms generalizing m with
  | nil => rfl
  | cons rom roms ih =>
    have hanswer : (m.settle (m.load rom)).2 =
        if rom.length ≤ 3584 then none else some (.romTooLarge rom.length 3584) := by
      rw [load_eq_ite]
      split_ifs <;> rfl
    rw [List.map_cons, ← hanswer, ← ih (m.after rom)]
    rfl

theorem read_loads_below (m : Memory) (roms : List (List UInt8)) {a : Nat} (h : a < 0x200) :
    (m.loads roms).1.read a = m.read a := by
  rw [fst_loads]
  induction roms generalizing m with
  | nil => rfl
  | cons rom roms ih => rw [List.foldl_cons, ih, m.read_after_below rom h]

theorem read_loads_short (m : Memory) {roms : List (List UInt8)} {j : Nat}
    (h : ∀ rom ∈ roms, rom.length ≤ 3584 → rom.length ≤ j) :
    (m.loads roms).1.read (0x200 + j) = m.read (0x200 + j) := by
  rw [fst_loads]
  induction roms generalizing m with
  | nil => rfl
  | cons rom roms ih =>
    rw [List.forall_mem_cons] at h
    rw [List.foldl_cons, ih _ h.2, m.read_after_short h.1]

/-- What several loads leave in memory. -/
structure Overlays (m : Memory) (roms : List (List UInt8)) : Prop where
  answers : (m.loads roms).2 = roms.map fun rom =>
    if rom.length ≤ 3584 then none else some (.romTooLarge rom.length 3584)
  refused : ∀ earlier rom later, roms = earlier ++ rom :: later → 3584 < rom.length →
    (m.loads (earlier ++ [rom])).1 = (m.loads earlier).1
  below : ∀ a < 0x200, (m.loads roms).1.read a = m.read a
  newest : ∀ earlier rom later j b, roms = earlier ++ rom :: later → rom.length ≤ 3584 →
    rom[j]? = some b → (∀ other ∈ later, other.length ≤ 3584 → other.length ≤ j) →
    (m.loads roms).1.read (0x200 + j) = .ok b
  untouched : ∀ j, (∀ rom ∈ roms, rom.length ≤ 3584 → rom.length ≤ j) →
    (m.loads roms).1.read (0x200 + j) = m.read (0x200 + j)

theorem overlays (m : Memory) (roms : List (List UInt8)) : m.Overlays roms := by
  constructor
  case answers => exact m.snd_loads roms
  case refused =>
    rintro earlier rom later - hlong
    rw [fst_loads, fst_loads, List.foldl_concat, after_of_lt _ hlong]
  case below =>
    intro a ha
    exact m.read_loads_below roms ha
  case newest =>
    rintro earlier rom later j b rfl hfits hb hlater
    have hsplit : (m.loads (earlier ++ rom :: later)).1 =
        (((earlier.foldl after m).after rom).loads later).1 := by
      rw [fst_loads, fst_loads, List.foldl_append, List.foldl_cons]
    rw [hsplit, read_loads_short _ hlater, read_after_of_getElem? _ hfits hb]
  case untouched =>
    intro j h
    exact m.read_loads_short h

end Memory

/-! ## Programs of a machine -/

namespace Machine

variable {κ : Type}

/-- The machine after several loads, and their outcomes. -/
def loads (m : Machine κ) : List (List UInt8) → Machine κ × List Outcome
  | [] => (m, [])
  | rom :: roms =>
    let (changed, outcome) := m.load rom
    let (final, outcomes) := changed.loads roms
    (final, outcome :: outcomes)

theorem load_eq (m : Machine κ) (rom : List UInt8) :
    m.load rom = ({ m with memory := m.memory.after rom },
      (m.memory.settle (m.memory.load rom)).2.elim .proceed .failed) := by
  unfold load Memory.after
  cases m.memory.load rom <;> rfl

theorem loads_eq (m : Machine κ) (roms : List (List UInt8)) :
    m.loads roms = ({ m with memory := (m.memory.loads roms).1 },
      (m.memory.loads roms).2.map (·.elim .proceed .failed)) := by
  induction roms generalizing m with
  | nil => rfl
  | cons rom roms ih =>
    simp only [loads, load_eq, ih]
    rfl

/-- The words of an image are read where it was put. -/
theorem reads_of_image {m : Machine κ} {memory : Memory} {rom : List UInt8} {k : Nat}
    {high low : UInt8} (hm : m.memory = memory.after rom) (hrom : rom.length ≤ 3584)
    (hpc : m.pc.toNat = 0x200 + k) (hhigh : rom[k]? = some high) (hlow : rom[k + 1]? = some low) :
    m.Reads (.ofBytes high low) := by
  have hlt := (List.getElem?_eq_some_iff.mp hlow).1
  have h1 := memory.read_after_of_getElem? hrom hhigh
  have h2 := memory.read_after_of_getElem? hrom hlow
  rw [← hm, Memory.read_of_lt _ (by omega), Except.ok.injEq] at h1 h2
  refine ⟨by omega, ?_⟩
  rw [Word.toNat_ofBytes, ← h1, ← h2]
  simp only [hpc, Nat.add_assoc]

end Machine

/-- **Images.** A load succeeds exactly if the image has at most 3584 bytes; any other is refused by
its length and changes nothing. After any number of loads the bytes below 0x200 are as before, and
each byte above is that of the last accepted image that reaches it, if there is one. A machine loads
in the same way and keeps all but its memory. -/
theorem Memory.images_overlay (memory : Memory) (roms : List (List UInt8)) :
    memory.Overlays roms ∧ ∀ (κ : Type) (m : Machine κ),
      { m with memory }.loads roms = ({ m with memory := (memory.loads roms).1 },
        (memory.loads roms).2.map (·.elim .proceed .failed)) := by
  refine ⟨memory.overlays roms, ?_⟩
  intro κ m
  exact Machine.loads_eq { m with memory } roms

/-- A short image over the start of a longer one, with one that is too long in between. -/
theorem Memory.images_overlay_tail :
    ∃ long : List UInt8, long.length = 3585 ∧
      let after := fresh.loads [[1, 2, 3], long, [9]]
      after.2 = [none, some (.romTooLarge 3585 3584), none] ∧
      after.1.read 0x200 = .ok 9 ∧ after.1.read 0x202 = .ok 3 ∧
      after.1.read 0x203 = fresh.read 0x203 := by
  obtain ⟨long, hlong⟩ : ∃ long : List UInt8, long.length = 3585 :=
    ⟨List.replicate 3585 7, List.length_replicate⟩
  obtain ⟨h, -⟩ := images_overlay fresh [[1, 2, 3], long, [9]]
  refine ⟨long, hlong, ?_, ?_, ?_, ?_⟩
  · rw [h.answers]
    simp [hlong]
  · exact h.newest [[1, 2, 3], long] [9] [] 0 9 rfl (by decide) rfl (by simp)
  · exact h.newest [] [1, 2, 3] [long, [9]] 2 3 rfl (by decide) rfl (by simp [hlong])
  · exact h.untouched 3 (by simp [hlong])

end Chip8
