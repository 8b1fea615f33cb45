import Mathlib.Data.List.Infix
import Chip8.Machine.Step
import Chip8.Proofs.InstructionSet

/-!
# Steps and runs

A step reads a word, decodes it and performs its operation. A run is any number of steps; before
each of them the host leaves clock and keypad as it likes.
-/

namespace Chip8

theorem Word.toNat_ofBytes (high low : UInt8) :
    (ofBytes high low).toNat = 256 * high.toNat + low.toNat := by
  have hh := high.toNat_lt
  have hl := low.toNat_lt
  have hshift : (high.toUInt16 <<< 8).toNat = 2 ^ 8 * high.toNat := by
    simp [Nat.shiftLeft_eq]; omega
  unfold ofBytes
  rw [UInt16.toNat_or, hshift, UInt8.toNat_toUInt16, ← Nat.two_pow_add_eq_or_of_lt hl]

def Outcome.Succeeds (o : Outcome) : Prop := o = .proceed ∨ o = .wait

namespace Machine

variable {κ : Type}

/-! ## One step -/

/-- The two bytes at the program counter are those of `w`, the high one first. -/
def Reads (m : Machine κ) (w : Word) : Prop :=
  ∃ _ : m.pc.toNat + 1 < 4096,
    w.toNat = 256 * m.memory.bytes[m.pc.toNat].toNat + m.memory.bytes[m.pc.toNat + 1].toNat

theorem fetch_eq_ok_iff (m : Machine κ) (w : Word) : m.fetch = .ok w ↔ m.Reads w := by
  unfold fetch Memory.word Reads
  split
  · rename_i h
    rw [Except.ok.injEq, ← UInt16.toNat_inj, Word.toNat_ofBytes]
    constructor
    · intro hw
      exact ⟨h, hw.symm⟩
    · rintro ⟨_, hw⟩
      exact hw.symm
  · rename_i h
    simp [h]

theorem fetch_eq_error_iff (m : Machine κ) (fault : Fault) :
    m.fetch = .error fault ↔ 4095 ≤ m.pc.toNat ∧ fault = .outOfBounds (max m.pc.toNat 4096) := by
  unfold fetch Memory.word Memory.outside Memory.size
  split
  · simp; omega
  · simp only [Except.error.injEq]
    constructor
    · rintro rfl
      exact ⟨by omega, rfl⟩
    · rintro ⟨_, rfl⟩
      rfl

theorem Reads.unique {m : Machine κ} {v w : Word} (hv : m.Reads v) (hw : m.Reads w) : v = w := by
  rw [← fetch_eq_ok_iff] at hv hw
  rw [hv] at hw
  exact Except.ok.inj hw

variable [Keypad κ]

theorem execute_eq (m : Machine κ) (w : Word) :
    m.execute w = w.operation?.elim (m, .failed (.unsupported w m.pc)) (m.perform w) := by
  unfold execute
  rw [← Table.standard_lookup]
  cases Table.standard.lookup w <;> rfl

theorem execute_of_covers (m : Machine κ) (w : Word) (op : Operation) (h : op.Covers w) :
    m.execute w = m.perform w op := by
  rw [execute_eq, w.operation?_of_covers op h]
  rfl

theorem step_of_reads (m : Machine κ) (w : Word) (h : m.Reads w) : m.step = m.execute w := by
  unfold step
  rw [(m.fetch_eq_ok_iff w).mpr h]

/-- A word that succeeds has had an operation of the set performed. -/
theorem execute_succeeds (m : Machine κ) (w : Word) (h : (m.execute w).2.Succeeds) :
    ∃ op : Operation, op.Covers w ∧ m.execute w = m.perform w op := by
  cases hop : w.operation? with
  | none => simp [execute_eq, hop, Outcome.Succeeds] at h
  | some op =>
    have hc := w.covers_of_operation? op hop
    exact ⟨op, hc, m.execute_of_covers w op hc⟩

theorem step_succeeds (m : Machine κ) (h : m.step.2.Succeeds) :
    ∃ w op, m.Reads w ∧ op.Covers w ∧ m.step = m.perform w op := by
  cases hfetch : m.fetch with
  | error fault => simp [step, hfetch, Outcome.Succeeds] at h
  | ok w =>
    rw [fetch_eq_ok_iff] at hfetch
    rw [m.step_of_reads w hfetch] at h ⊢
    obtain ⟨op, hc, hop⟩ := m.execute_succeeds w h
    exact ⟨w, op, hfetch, hc, hop⟩

end Machine

/-! ## Runs -/

/-- What the host decides before a step. The clock may also go back. -/
structure Host (κ : Type) where
  now : Nat
  keypad : κ

namespace Machine

variable {κ : Type}

def hosted (m : Machine κ) (h : Host κ) : Machine κ := { m with now := h.now, keypad := h.keypad }

@[simp]
theorem hosted_pc (m : Machine κ) (h : Host κ) : (m.hosted h).pc = m.pc := rfl

@[simp]
theorem hosted_stack (m : Machine κ) (h : Host κ) : (m.hosted h).stack = m.stack := rfl

variable [Keypad κ]

/-- The machines that a run makes its steps in. -/
def visits (m : Machine κ) : List (Host κ) → List (Machine κ)
  | [] => []
  | h :: hs => m.hosted h :: (m.hosted h).step.1.visits hs

/-- The machine after a run. -/
def run (m : Machine κ) : List (Host κ) → Machine κ
  | [] => m
  | h :: hs => (m.hosted h).step.1.run hs

theorem prefix_visits_iff (m : Machine κ) (hs : List (Host κ)) (early : List (Machine κ)) :
    early <+: m.visits hs ↔ ∃ hs', hs' <+: hs ∧ m.visits hs' = early := by
  induction hs generalizing m early with
  | nil => simp [visits, eq_comm]
  | cons h hs ih =>
    rw [visits, List.prefix_cons_iff]
    constructor
    · rintro (rfl | ⟨rest, rfl, hrest⟩)
      · exact ⟨[], List.nil_prefix, rfl⟩
      · obtain ⟨hs', hpre, rfl⟩ := (ih _ _).mp hrest
        exact ⟨h :: hs', List.cons_prefix_cons.mpr ⟨rfl, hpre⟩, rfl⟩
    · rintro ⟨hs', hpre, rfl⟩
      rcases List.prefix_cons_iff.mp hpre with rfl | ⟨rest, rfl, hrest⟩
      · exact .inl rfl
      · exact .inr ⟨_, rfl, (ih _ _).mpr ⟨rest, hrest, rfl⟩⟩

theorem visits_subset (m : Machine κ) {hs' hs : List (Host κ)} (h : hs' <+: hs) :
    m.visits hs' ⊆ m.visits hs := by
  have hpre : m.visits hs' <+: m.visits hs := (m.prefix_visits_iff hs _).mpr ⟨hs', h, rfl⟩
  exact hpre.subset

theorem visits_append (m : Machine κ) (hs hs' : List (Host κ)) :
    m.visits (hs ++ hs') = m.visits hs ++ (m.run hs).visits hs' := by
  induction hs generalizing m with
  | nil => rfl
  | cons h hs ih => simp [visits, run, ih]

/-- What neither the host nor a step breaks holds throughout a run. -/
theorem run_preserves (P : Machine κ → Prop) (hhosted : ∀ m host, P m → P (m.hosted host))
    (hstep : ∀ m, P m → P m.step.1) (m : Machine κ) (hm : P m) (hosts : List (Host κ)) :
    (∀ v ∈ m.visits hosts, P v) ∧ P (m.run hosts) := by
  induction hosts generalizing m with
  | nil => exact ⟨by simp [visits], hm⟩
  | cons host hosts ih =>
    have hhost := hhosted m host hm
    obtain ⟨hvisits, hrun⟩ := ih _ (hstep _ hhost)
    rw [visits, run, List.forall_mem_cons]
    exact ⟨⟨hhost, hvisits⟩, hrun⟩

/-- A machine about to run a program at address 0, with zeros above it. -/
def bare (program : List UInt8) : Machine Script where
  memory := Memory.overwrite ⟨Vector.replicate 4096 0⟩ 0 program
  pc := 0
  delay := { period := Duration.second }
  sound := { period := Duration.second }
  keypad := {}
  random := .ofSeed 0

end Machine

end Chip8
