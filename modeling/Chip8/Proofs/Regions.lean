import Mathlib.Data.List.TakeWhile
import Chip8.Proofs.Effects

/-!
# Regions

Words and regions are read and written at once. Byte by byte the same bytes come out, the same bytes
change, and a fault is the one that the first byte outside memory gives.
-/

namespace Chip8.Memory

/-! ## Byte by byte -/

/-- The answers to reading `n` bytes one by one. -/
def reads (m : Memory) (a n : Nat) : List (Except Fault UInt8) :=
  (List.range n).map fun k => m.read (a + k)

/-- What is in memory after a change that may fail, and the fault if it did. -/
def settle (m : Memory) : Except Fault Memory → Memory × Option Fault
  | .ok changed => (changed, none)
  | .error fault => (m, some fault)

theorem read_of_lt (m : Memory) {a : Nat} (h : a < 4096) : m.read a = .ok m.bytes[a] := dif_pos h

theorem read_of_le (m : Memory) {a : Nat} (h : 4096 ≤ a) : m.read a = .error (.outOfBounds a) :=
  dif_neg (Nat.not_lt.mpr h)

theorem reads_succ (m : Memory) (a n : Nat) :
    m.reads a (n + 1) = m.read a :: m.reads (a + 1) n := by
  simp [reads, List.range_succ_eq_map, Nat.add_assoc, Nat.add_comm 1, Function.comp_def]

theorem reads_add (m : Memory) (a n k : Nat) :
    m.reads a (n + k) = m.reads a n ++ m.reads (a + n) k := by
  simp [reads, List.range_add, Nat.add_assoc]

/-! ## Reading -/

/-- After the bytes in memory comes the first fault. -/
theorem reads_outside (m : Memory) (a n : Nat) (hn : 1 ≤ n) (h : 4096 < a + n) :
    ∃ later, m.reads a n = m.reads a (4096 - a) ++ .error (outside a) :: later := by
  obtain ⟨k, rfl⟩ : ∃ k, n = 4096 - a + (k + 1) := ⟨n - (4096 - a) - 1, by omega⟩
  have hfirst : a + (4096 - a) = max a size := by
    unfold size
    omega
  refine ⟨m.reads (max a size + 1) k, ?_⟩
  rw [reads_add, reads_succ, hfirst, m.read_of_le (Nat.le_max_right a size)]
  rfl

theorem map_ok_clamped (m : Memory) (a n : Nat) :
    (m.clamped a n).map .ok = m.reads a (min n (4096 - a)) := by
  apply List.ext_getElem
  · simp [reads, clamped]
  · intro k hk _
    have hk : a + k < 4096 := by
      simp [clamped] at hk
      omega
    simp [reads, clamped, m.read_of_lt hk]

theorem region_eq_ite (m : Memory) (a n : Nat) :
    m.region a n = if a + n ≤ 4096 then .ok (m.clamped a n) else .error (outside a) := by
  unfold region check size
  split_ifs <;> rfl

theorem region_eq_ok_iff (m : Memory) {a n : Nat} (hn : 1 ≤ n) (bs : List UInt8) :
    m.region a n = .ok bs ↔ m.reads a n = bs.map .ok := by
  rw [region_eq_ite]
  split_ifs with h
  · have hok : Function.Injective (Except.ok : UInt8 → Except Fault UInt8) := fun _ _ => Except.ok.inj
    have hclamped := m.map_ok_clamped a n
    rw [Nat.min_eq_left (by omega)] at hclamped
    rw [← hclamped, Except.ok.injEq, (List.map_injective_iff.mpr hok).eq_iff]
  · obtain ⟨later, hreads⟩ := m.reads_outside a n hn (by omega)
    apply iff_of_false (by simp)
    intro hmap
    have hmem : (.error (outside a) : Except Fault UInt8) ∈ bs.map .ok := by simp [← hmap, hreads]
    simp at hmem

end Chip8.Memory
