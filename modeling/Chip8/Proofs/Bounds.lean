import Chip8.Proofs.Control

/-!
# Bounds

A program that starts at 0x200 never gets farther than 0x10FE: a step needs an instruction below
0xFFF, and from there the longest way is BNNN. The addresses on the stack are those of calls, so
they are lower still. The limit of the call stack holds whatever is done to a machine.
-/

namespace Chip8

namespace Machine

variable {κ : Type}

/-! ## The limit of the call stack -/

/-- The machine has this limit for nested calls and keeps to it. -/
def KeepsTo (limit : Option Nat) (m : Machine κ) : Prop :=
  m.stackLimit = limit ∧ ∀ n ∈ limit, m.stack.size ≤ n

theorem roomToCall_eq_ok (m : Machine κ) (u : Unit) (h : m.roomToCall = .ok u) :
    ∀ n ∈ m.stackLimit, m.stack.size < n := by
  intro n hn
  by_contra hfull
  have herror := (m.roomToCall_eq_error_iff (.stackOverflow m.pc n)).mpr ⟨n, hn, by omega, rfl⟩
  rw [herror] at h
  cases h

theorem KeepsTo.congr {limit : Option Nat} {m m' : Machine κ} (h : m.KeepsTo limit)
    (hlimit : m'.stackLimit = m.stackLimit) (hstack : m'.stack.size ≤ m.stack.size) :
    m'.KeepsTo limit := by
  refine ⟨hlimit.trans h.1, ?_⟩
  intro n hn
  exact hstack.trans (h.2 n hn)

theorem KeepsTo.call {limit : Option Nat} {m : Machine κ} (h : m.KeepsTo limit) (pc : UInt16) :
    (m.attempt m.roomToCall fun _ => { m with pc, stack := m.stack.push m.pc }).1.KeepsTo limit := by
  apply attempt_state (KeepsTo limit) m _ _ h
  intro u hroom
  refine ⟨h.1, ?_⟩
  intro n hn
  rw [Array.size_push]
  exact m.roomToCall_eq_ok u hroom n (by rw [h.1]; exact hn)

theorem KeepsTo.pop {limit : Option Nat} {m : Machine κ} (h : m.KeepsTo limit) :
    m.pop.1.KeepsTo limit := by
  apply attempt_state (KeepsTo limit) m _ _ h
  intro _ _
  exact h.congr rfl (by simp)

variable [Keypad κ]

theorem KeepsTo.perform {limit : Option Nat} {m : Machine κ} (h : m.KeepsTo limit) (w : Word)
    (op : Operation) : (m.perform w op).1.KeepsTo limit := by
  by_cases hcall : op = .call
  · subst hcall
    exact h.call w.nnn
  by_cases hret : op = .ret
  · subst hret
    apply attempt_state (KeepsTo limit) m _ _ h
    intro _ _
    exact h.congr rfl (by simp [advance])
  · apply h.congr (m.perform_same w op .limit op.limit_not_mem_parts)
    rw [m.perform_stack w op hcall hret]

theorem KeepsTo.execute {limit : Option Nat} {m : Machine κ} (h : m.KeepsTo limit) (w : Word) :
    (m.execute w).1.KeepsTo limit := by
  rw [execute_eq]
  cases w.operation? with
  | none => exact h
  | some op => exact h.perform w op

theorem KeepsTo.step {limit : Option Nat} {m : Machine κ} (h : m.KeepsTo limit) :
    m.step.1.KeepsTo limit := by
  unfold Machine.step
  cases m.fetch with
  | error fault => exact h
  | ok w => exact h.execute w

end Machine

/-! ## Whatever is done to a machine -/

/-- What can be asked of a machine from outside. The host may put in any registers, memory and
screen. -/
inductive Request (κ : Type) where
  | step
  | execute (w : Word)
  | setPc (pc : UInt16)
  | setIndex (value : UInt32)
  | push
  | pop
  | load (rom : List UInt8)
  | setRegisters (registers : Registers)
  | setMemory (memory : Memory)
  | setScreen (screen : Screen)
  | host (host : Host κ)

namespace Machine

variable {κ : Type} [Keypad κ]

def obey (m : Machine κ) : Request κ → Machine κ
  | .step => m.step.1
  | .execute w => (m.execute w).1
  | .setPc pc => { m with pc }
  | .setIndex value => { m with index := .ofValue value }
  | .push => m.push.1
  | .pop => m.pop.1
  | .load rom => (m.load rom).1
  | .setRegisters registers => { m with registers }
  | .setMemory memory => { m with memory }
  | .setScreen screen => { m with screen }
  | .host host => m.hosted host

theorem KeepsTo.obey {limit : Option Nat} {m : Machine κ} (h : m.KeepsTo limit)
    (request : Request κ) : (m.obey request).KeepsTo limit := by
  cases request
  case step => exact h.step
  case execute w => exact h.execute w
  case push => exact h.call m.pc
  case pop => exact h.pop
  case load rom => exact attempt_state (KeepsTo limit) m _ _ h fun _ _ => h
  all_goals exact h

theorem KeepsTo.obey_all {limit : Option Nat} {m : Machine κ} (h : m.KeepsTo limit)
    (requests : List (Request κ)) : (requests.foldl Machine.obey m).KeepsTo limit := by
  induction requests generalizing m with
  | nil => exact h
  | cons request requests ih => exact ih (h.obey request)

/-! ## Addresses in a run -/

theorem toNat_add_small (a : UInt16) (k : Nat) (h : a.toNat + k < 65536) :
    (a + UInt16.ofNat k).toNat = a.toNat + k := by
  rw [UInt16.toNat_add, UInt16.toNat_ofNat', Nat.mod_eq_of_lt (a := k) (by omega)]
  exact Nat.mod_eq_of_lt h

omit [Keypad κ] in
theorem destination_le (m : Machine κ) (w : Word) (key : Option Nibble) (op : Operation)
    (hpc : m.pc.toNat ≤ 0xFFE) (hstack : ∀ a ∈ m.stack, a.toNat ≤ 0xFFE) :
    (m.destination w key op).toNat ≤ 0x10FE := by
  have hnnn := w.toNat_nnn
  have h2 : (m.pc + 2).toNat = m.pc.toNat + 2 := toNat_add_small m.pc 2 (by omega)
  have h4 : (m.pc + 4).toNat = m.pc.toNat + 4 := toNat_add_small m.pc 4 (by omega)
  cases op
  case jump | call =>
    simp only [destination]
    omega
  case jumpOffset =>
    have := (m.registers.get 0).toNat_lt
    simp only [destination, w.toNat_nnn_add]
    omega
  case ret =>
    have htop : (m.stack.back?.getD 0).toNat ≤ 0xFFE := by
      cases hback : m.stack.back? with
      | none => decide
      | some top => exact hstack top (Array.mem_of_back? hback)
    have hsum := toNat_add_small (m.stack.back?.getD 0) 2 (by omega)
    exact hsum.trans_le (by omega)
  all_goals
    simp only [destination]
    split_ifs <;> omega

/-- The addresses of a run that started at 0x200. -/
structure InReach (m : Machine κ) : Prop where
  pc_le : m.pc.toNat ≤ 0x10FE
  stack_le : ∀ a ∈ m.stack, a.toNat ≤ 0xFFE

theorem InReach.step {m : Machine κ} (h : m.InReach) : m.step.1.InReach := by
  rcases m.step_state with hsame | hok
  · rw [hsame]
    exact h
  obtain ⟨w, op, ⟨hread, _⟩, _, hstep⟩ := m.step_succeeds hok
  rw [hstep] at hok ⊢
  constructor
  · rw [m.perform_pc w op hok]
    exact m.destination_le w _ op (by omega) h.stack_le
  · by_cases hcall : op = .call
    · -- A call comes from where an instruction could be read.
      subst hcall
      rw [m.perform_call w hok]
      intro a ha
      rcases Array.mem_push.mp ha with ha | rfl
      · exact h.stack_le a ha
      · omega
    by_cases hret : op = .ret
    · subst hret
      obtain ⟨top, hstack, _⟩ := m.perform_ret w hok
      intro a ha
      apply h.stack_le a
      rw [hstack]
      exact Array.mem_push_of_mem top ha
    · rw [m.perform_stack w op hcall hret]
      exact h.stack_le

/-! ## From the start -/

def InBounds (limit : Option Nat) (m : Machine κ) : Prop := m.InReach ∧ m.KeepsTo limit

omit [Keypad κ] in
theorem inBounds_new (settings : Settings) (keypad : κ) (entropy : UInt64) (random : Random)
    (fresh : Machine κ) (h : new? settings keypad entropy = some fresh) :
    ({ fresh with random } : Machine κ).InBounds settings.stackLimit := by
  obtain ⟨period, _, rfl⟩ := Option.map_eq_some_iff.mp h
  have hpc : (UInt16.ofNat Memory.romStart).toNat ≤ 0x10FE := by decide
  exact ⟨⟨hpc, by simp⟩, rfl, by simp⟩

omit [Keypad κ] in
theorem InBounds.load {limit : Option Nat} {m : Machine κ} (h : m.InBounds limit)
    (rom : List UInt8) : (m.load rom).1.InBounds limit := by
  apply attempt_state (InBounds limit) m _ _ h
  intro _ _
  exact ⟨⟨h.1.pc_le, h.1.stack_le⟩, h.2⟩

theorem InBounds.run {limit : Option Nat} {m : Machine κ} (h : m.InBounds limit)
    (hosts : List (Host κ)) :
    (∀ v ∈ m.visits hosts, v.InBounds limit) ∧ (m.run hosts).InBounds limit := by
  apply run_preserves (InBounds limit) _ _ m h
  · intro m host h
    exact ⟨⟨h.1.pc_le, h.1.stack_le⟩, h.2⟩
  · intro m h
    exact ⟨h.1.step, h.2.step⟩

omit [Keypad κ] in
/-- No address that a step computes wraps around. -/
theorem InReach.sums {m : Machine κ} (h : m.InReach) :
    (m.pc + 2).toNat = m.pc.toNat + 2 ∧ (m.pc + 4).toNat = m.pc.toNat + 4 ∧
      ∀ a ∈ m.stack, (a + 2).toNat = a.toNat + 2 := by
  have hpc := h.pc_le
  refine ⟨toNat_add_small m.pc 2 (by omega), toNat_add_small m.pc 4 (by omega), ?_⟩
  intro a ha
  have ha := h.stack_le a ha
  exact toNat_add_small a 2 (by omega)

/-- **Bounds of a run.** From a new machine with any random bytes and any program a run stays below
0x10FF, its stack holds addresses of instructions, at most as many as the settings allow, and I is an
address. So nothing that a step adds to an address wraps around. The bounds of I and of the stack hold
after whatever else is asked of the machine, too. -/
theorem run_in_bounds (settings : Settings) (keypad : κ) (entropy : UInt64) (random : Random)
    (fresh : Machine κ) (hnew : new? settings keypad entropy = some fresh) :
    (∀ (rom : List UInt8) (hosts : List (Host κ)) (start final : Machine κ),
      start = ({ fresh with random }.load rom).1 → final = start.run hosts →
      final.pc.toNat ≤ 0x10FE ∧
      (∀ a ∈ final.stack, a.toNat ≤ 0xFFE) ∧
      final.index.val ≤ 0xFFF ∧
      (∀ limit ∈ settings.stackLimit, final.stack.size ≤ limit) ∧
      ∀ v ∈ start.visits hosts,
        (v.pc + 2).toNat = v.pc.toNat + 2 ∧ (v.pc + 4).toNat = v.pc.toNat + 4 ∧
          ∀ a ∈ v.stack, (a + 2).toNat = a.toNat + 2) ∧
    (∀ (requests : List (Request κ)) (final : Machine κ),
      final = requests.foldl obey { fresh with random } →
      final.index.val ≤ 0xFFF ∧ ∀ limit ∈ settings.stackLimit, final.stack.size ≤ limit) := by
  have hfresh := inBounds_new settings keypad entropy random fresh hnew
  constructor
  · rintro rom hosts start final rfl rfl
    obtain ⟨hvisits, hreach, hkeeps⟩ := (hfresh.load rom).run hosts
    refine ⟨hreach.pc_le, hreach.stack_le, by omega, hkeeps.2, ?_⟩
    intro v hv
    exact (hvisits v hv).1.sums
  · rintro requests final rfl
    have hfinal := hfresh.2.obey_all requests
    exact ⟨by omega, hfinal.2⟩

/-- A program that calls itself for ever is stopped at the limit, and does not get away. -/
theorem run_in_bounds_recursion :
    ∃ fresh, new? { stackLimit := some 1 } ({} : Script) 0 = some fresh ∧
      ((fresh.load [0x22, 0x00]).1.run [⟨0, {}⟩, ⟨0, {}⟩, ⟨0, {}⟩]).stack.size ≤ 1 ∧
      ((fresh.load [0x22, 0x00]).1.run [⟨0, {}⟩, ⟨0, {}⟩, ⟨0, {}⟩]).pc.toNat ≤ 0x10FE := by
  obtain ⟨fresh, hnew⟩ : ∃ fresh, new? { stackLimit := some 1 } ({} : Script) 0 = some fresh :=
    Option.isSome_iff_exists.mp (by decide +kernel)
  have h := run_in_bounds { stackLimit := some 1 } {} 0 fresh.random fresh hnew
  obtain ⟨hpc, _, _, hdepth, _⟩ :=
    h.1 [0x22, 0x00] [⟨0, {}⟩, ⟨0, {}⟩, ⟨0, {}⟩] _ _ rfl rfl
  exact ⟨fresh, hnew, hdepth 1 rfl, hpc⟩

end Machine

end Chip8
