import Mathlib.Tactic.SplitIfs
import Chip8.Proofs.Run

/-!
# Faults

Whatever can fail is checked before anything is changed. So a fault leaves the machine as it was,
and when there is one can be said in terms of the machine before the step.
-/

namespace Chip8

/-! ## Checks -/

theorem Memory.check_eq_error_iff (a : Address) (len : Nat) (fault : Fault) :
    check a.val len = .error fault ↔ 4096 < a.val + len ∧ .outOfBounds 4096 = fault := by
  have ha := a.isLt
  unfold check outside size
  split_ifs with h
  · simp; omega
  · rw [Nat.max_eq_right (by omega), Except.error.injEq]
    constructor
    · intro hf
      exact ⟨by omega, hf⟩
    · rintro ⟨_, hf⟩
      exact hf

theorem Memory.region_eq_error_iff (memory : Memory) (a len : Nat) (fault : Fault) :
    memory.region a len = .error fault ↔ check a len = .error fault := by
  unfold region
  cases check a len <;> simp [Except.map]

theorem Registers.length_take (v : Registers) (x : Nibble) :
    (v.toList.take (x.val + 1)).length = x.val + 1 := by
  have hx := x.isLt
  rw [List.length_take, toList, Vector.length_toList]
  omega

namespace Machine

variable {κ : Type}

theorem newestCall_eq_error_iff (m : Machine κ) (fault : Fault) :
    m.newestCall = .error fault ↔ m.stack.size = 0 ∧ .stackUnderflow m.pc = fault := by
  unfold newestCall
  cases hback : m.stack.back? with
  | none =>
    rw [Array.back?_eq_none_iff] at hback
    simp [hback]
  | some address =>
    have hne : m.stack.size ≠ 0 := by
      intro h0
      rw [Array.size_eq_zero_iff] at h0
      simp [h0] at hback
    simp [hne]

theorem roomToCall_eq_error_iff (m : Machine κ) (fault : Fault) :
    m.roomToCall = .error fault ↔
      ∃ limit, m.stackLimit = some limit ∧ limit ≤ m.stack.size ∧
        .stackOverflow m.pc limit = fault := by
  unfold roomToCall
  cases m.stackLimit with
  | none => simp
  | some limit =>
    by_cases h : limit ≤ m.stack.size
    · simp [h]
    · simp [h]

theorem attempt_failed_state {α : Type} (m : Machine κ) (result : Except Fault α)
    (next : α → Machine κ) (fault : Fault) (h : (m.attempt result next).2 = .failed fault) :
    (m.attempt result next).1 = m := by
  cases result with
  | error fault' => rfl
  | ok a => cases h

/-! ## Operations -/

/-- The fault that an operation is refused with, if it is refused. -/
def refusal (m : Machine κ) (w : Word) : Operation → Option Fault
  | .native => some (.unsupported w m.pc)
  | .ret => if m.stack.size = 0 then some (.stackUnderflow m.pc) else none
  | .call => m.stackLimit.bind fun limit =>
      if limit ≤ m.stack.size then some (.stackOverflow m.pc limit) else none
  | .decimal => if 4096 < m.index.val + 3 then some (.outOfBounds 4096) else none
  | .storeRegisters | .loadRegisters =>
    if 4096 < m.index.val + (w.x.val + 1) then some (.outOfBounds 4096) else none
  | _ => none

/-- Whether an operation sets a timer to a moment beyond the clock's range. -/
def Overflows (m : Machine κ) (w : Word) : Operation → Prop
  | .setDelay => Timer.horizon ≤ m.now + m.delay.period * (m.registers.get w.x).toNat
  | .setSound => Timer.horizon ≤ m.now + m.sound.period * (m.registers.get w.x).toNat
  | _ => False

/-- What an operation can come to. -/
def Verdict (m : Machine κ) (w : Word) (op : Operation) (result : Machine κ × Outcome) : Prop :=
  (∃ fault, m.refusal w op = some fault ∧ ¬ m.Overflows w op ∧ result = (m, .failed fault)) ∨
  (m.refusal w op = none ∧ m.Overflows w op ∧ result = (m, .overflow)) ∨
  (m.refusal w op = none ∧ ¬ m.Overflows w op ∧ result.2.Succeeds)

theorem verdict_attempt {α : Type} (m : Machine κ) (w : Word) (op : Operation)
    (result : Except Fault α) (next : α → Machine κ)
    (hr : ∀ fault, result = .error fault ↔ m.refusal w op = some fault) (ho : ¬ m.Overflows w op) :
    m.Verdict w op (m.attempt result next) := by
  cases result with
  | error fault => exact .inl ⟨fault, (hr fault).mp rfl, ho, rfl⟩
  | ok a =>
    have hnone : m.refusal w op = none := by
      apply Option.eq_none_iff_forall_ne_some.mpr
      intro fault hf
      cases (hr fault).mpr hf
    exact .inr (.inr ⟨hnone, ho, .inl rfl⟩)

theorem verdict_set (m : Machine κ) (w : Word) (op : Operation) (timer : Timer)
    (next : Timer → Machine κ) (hr : m.refusal w op = none)
    (ho : m.Overflows w op ↔
      Timer.horizon ≤ m.now + timer.period * (m.registers.get w.x).toNat) :
    m.Verdict w op (match timer.set? (m.registers.get w.x).toNat m.now with
      | some timer => (next timer, .proceed)
      | none => (m, .overflow)) := by
  unfold Timer.set?
  by_cases h : m.now + timer.period * (m.registers.get w.x).toNat < Timer.horizon
  · simp only [h, if_true]
    exact .inr (.inr ⟨hr, by rw [ho]; omega, .inl rfl⟩)
  · simp only [h, if_false]
    exact .inr (.inl ⟨hr, by rw [ho]; omega, rfl⟩)

variable [Keypad κ]

theorem perform_verdict (m : Machine κ) (w : Word) (op : Operation) :
    m.Verdict w op (m.perform w op) := by
  cases op
  case native => exact .inl ⟨_, rfl, id, rfl⟩
  case ret =>
    apply verdict_attempt m w .ret
    · intro fault
      simp [newestCall_eq_error_iff, refusal]
    · exact id
  case call =>
    apply verdict_attempt m w .call
    · intro fault
      simp [roomToCall_eq_error_iff, refusal, Option.bind_eq_some_iff]
    · exact id
  case decimal =>
    apply verdict_attempt m w .decimal
    · intro fault
      simp [Memory.check_eq_error_iff, refusal, decimalDigits]
    · exact id
  case storeRegisters =>
    apply verdict_attempt m w .storeRegisters
    · intro fault
      simp only [Registers.length_take]
      simp [Memory.check_eq_error_iff, refusal]
    · exact id
  case loadRegisters =>
    apply verdict_attempt m w .loadRegisters
    · intro fault
      simp [Memory.region_eq_error_iff, Memory.check_eq_error_iff, refusal]
    · exact id
  case awaitKey =>
    simp only [perform, awaitKey]
    split
    · exact .inr (.inr ⟨rfl, id, .inl rfl⟩)
    · exact .inr (.inr ⟨rfl, id, .inr rfl⟩)
  case setDelay => exact verdict_set m w .setDelay m.delay _ rfl Iff.rfl
  case setSound => exact verdict_set m w .setSound m.sound _ rfl Iff.rfl
  case clearScreen => exact .inr (.inr ⟨rfl, id, .inr rfl⟩)
  case draw => exact .inr (.inr ⟨rfl, id, .inr rfl⟩)
  all_goals exact .inr (.inr ⟨rfl, id, .inl rfl⟩)

theorem perform_failed_iff (m : Machine κ) (w : Word) (op : Operation) (fault : Fault) :
    (m.perform w op).2 = .failed fault ↔ m.refusal w op = some fault := by
  rcases m.perform_verdict w op with ⟨_, hr, _, h⟩ | ⟨hr, _, h⟩ | ⟨hr, _, h | h⟩ <;> simp [hr, h]

theorem perform_failed_state (m : Machine κ) (w : Word) (op : Operation) (fault : Fault)
    (hf : (m.perform w op).2 = .failed fault) : (m.perform w op).1 = m := by
  rcases m.perform_verdict w op with ⟨_, _, _, h⟩ | ⟨_, _, h⟩ | ⟨_, _, h | h⟩ <;> simp_all

theorem perform_overflow_iff (m : Machine κ) (w : Word) (op : Operation) :
    (m.perform w op).2 = .overflow ↔ m.Overflows w op := by
  rcases m.perform_verdict w op with ⟨_, _, ho, h⟩ | ⟨_, ho, h⟩ | ⟨_, ho, h | h⟩ <;> simp [ho, h]

/-! ## Words -/

/-- What executing a word can be refused for. -/
def Refuses (m : Machine κ) (w : Word) : Fault → Prop
  | .unsupported word pc => ¬ w.Supported ∧ word = w ∧ pc = m.pc
  | .stackUnderflow pc => w = 0x00EE ∧ m.stack.size = 0 ∧ pc = m.pc
  | .stackOverflow pc limit =>
    w.family = 2 ∧ m.stackLimit = some limit ∧ limit ≤ m.stack.size ∧ pc = m.pc
  | .outOfBounds address => address = 4096 ∧ w.family = 0xF ∧
      (w.nn = 0x33 ∧ 4096 < m.index.val + 3 ∨
        (w.nn = 0x55 ∨ w.nn = 0x65) ∧ 4096 < m.index.val + w.x.val + 1)
  | .romTooLarge .. => False

omit [Keypad κ] in
theorem refuses_of_refusal (m : Machine κ) (w : Word) (op : Operation) (fault : Fault)
    (hc : op.Covers w) (h : m.refusal w op = some fault) : m.Refuses w fault := by
  unfold refusal at h
  split at h
  case h_1 =>
    cases h
    exact ⟨w.not_supported_iff.mpr (.inr (w.operation?_of_covers _ hc)), rfl, rfl⟩
  case h_2 =>
    obtain ⟨h0, hf⟩ := Option.ite_none_right_eq_some.mp h
    cases hf
    exact ⟨hc, h0, rfl⟩
  case h_3 =>
    obtain ⟨limit, hl, h⟩ := Option.bind_eq_some_iff.mp h
    obtain ⟨hle, hf⟩ := Option.ite_none_right_eq_some.mp h
    cases hf
    exact ⟨hc, hl, hle, rfl⟩
  case h_4 =>
    obtain ⟨h3, hf⟩ := Option.ite_none_right_eq_some.mp h
    cases hf
    exact ⟨rfl, hc.1, .inl ⟨hc.2, h3⟩⟩
  case h_5 =>
    obtain ⟨hx, hf⟩ := Option.ite_none_right_eq_some.mp h
    cases hf
    exact ⟨rfl, hc.1, .inr ⟨.inl hc.2, hx⟩⟩
  case h_6 =>
    obtain ⟨hx, hf⟩ := Option.ite_none_right_eq_some.mp h
    cases hf
    exact ⟨rfl, hc.1, .inr ⟨.inr hc.2, hx⟩⟩
  case h_7 => cases h

theorem execute_failed_of_refusal (m : Machine κ) (w : Word) (op : Operation) (fault : Fault)
    (hc : op.Covers w) (h : m.refusal w op = some fault) : (m.execute w).2 = .failed fault := by
  rw [m.execute_of_covers w op hc, perform_failed_iff]
  exact h

theorem execute_failed_of_refuses (m : Machine κ) (w : Word) (fault : Fault)
    (h : m.Refuses w fault) : (m.execute w).2 = .failed fault := by
  cases fault with
  | unsupported word pc =>
    obtain ⟨hn, hword, hpc⟩ := h
    rw [execute_eq, hword, hpc]
    rcases w.not_supported_iff.mp hn with h | h <;> rw [h] <;> rfl
  | stackUnderflow pc =>
    obtain ⟨hw, h0, rfl⟩ := h
    exact m.execute_failed_of_refusal w .ret _ hw (if_pos h0)
  | stackOverflow pc limit =>
    obtain ⟨hw, hl, hle, rfl⟩ := h
    apply m.execute_failed_of_refusal w .call _ hw
    simp [refusal, hl, hle]
  | outOfBounds address =>
    obtain ⟨rfl, hF, ⟨hw, h3⟩ | ⟨hw | hw, hx⟩⟩ := h
    · exact m.execute_failed_of_refusal w .decimal _ ⟨hF, hw⟩ (if_pos h3)
    · exact m.execute_failed_of_refusal w .storeRegisters _ ⟨hF, hw⟩ (if_pos hx)
    · exact m.execute_failed_of_refusal w .loadRegisters _ ⟨hF, hw⟩ (if_pos hx)
  | romTooLarge => exact h.elim

theorem execute_failed_iff (m : Machine κ) (w : Word) (fault : Fault) :
    (m.execute w).2 = .failed fault ↔ m.Refuses w fault := by
  constructor
  · intro h
    cases hop : w.operation? with
    | none =>
      rw [execute_eq, hop] at h
      cases h
      exact ⟨w.not_supported_iff.mpr (.inl hop), rfl, rfl⟩
    | some op =>
      have hc := w.covers_of_operation? op hop
      rw [m.execute_of_covers w op hc, perform_failed_iff] at h
      exact m.refuses_of_refusal w op fault hc h
  · exact m.execute_failed_of_refuses w fault

/-! ## Steps -/

theorem execute_failed_state (m : Machine κ) (w : Word) (fault : Fault)
    (h : (m.execute w).2 = .failed fault) : (m.execute w).1 = m := by
  rw [execute_eq] at h ⊢
  cases hop : w.operation? with
  | none => rfl
  | some op =>
    rw [hop] at h
    exact m.perform_failed_state w op fault h

theorem step_failed_iff (m : Machine κ) (fault : Fault) :
    m.step.2 = .failed fault ↔
      (4095 ≤ m.pc.toNat ∧ fault = .outOfBounds (max m.pc.toNat 4096)) ∨
        ∃ w, m.Reads w ∧ m.Refuses w fault := by
  rw [← m.fetch_eq_error_iff]
  cases hfetch : m.fetch with
  | error fault' =>
    have hno : ∀ w, ¬ m.Reads w := by
      intro w hw
      rw [(m.fetch_eq_ok_iff w).mpr hw] at hfetch
      cases hfetch
    simp [step, hfetch, hno]
  | ok w =>
    have hw := (m.fetch_eq_ok_iff w).mp hfetch
    rw [m.step_of_reads w hw, execute_failed_iff]
    constructor
    · intro h
      exact .inr ⟨w, hw, h⟩
    · rintro (h | ⟨w', hw', h⟩)
      · cases h
      · rwa [hw.unique hw']

theorem step_failed_state (m : Machine κ) (fault : Fault) (h : m.step.2 = .failed fault) :
    m.step.1 = m := by
  cases hfetch : m.fetch with
  | error fault' => simp [step, hfetch]
  | ok w =>
    rw [m.step_of_reads w ((m.fetch_eq_ok_iff w).mp hfetch)] at h ⊢
    exact m.execute_failed_state w fault h

/-- Only what succeeds changes anything. -/
theorem perform_state (m : Machine κ) (w : Word) (op : Operation) :
    (m.perform w op).1 = m ∨ (m.perform w op).2.Succeeds := by
  rcases m.perform_verdict w op with ⟨_, _, _, h⟩ | ⟨_, _, h⟩ | ⟨_, _, h⟩
  · exact .inl (by rw [h])
  · exact .inl (by rw [h])
  · exact .inr h

theorem execute_state (m : Machine κ) (w : Word) :
    (m.execute w).1 = m ∨ (m.execute w).2.Succeeds := by
  rw [execute_eq]
  cases w.operation? with
  | none => exact .inl rfl
  | some op => exact m.perform_state w op

theorem step_state (m : Machine κ) : m.step.1 = m ∨ m.step.2.Succeeds := by
  unfold step
  cases m.fetch with
  | error fault => exact .inl rfl
  | ok w => exact m.execute_state w

theorem step_overflow_iff (m : Machine κ) :
    m.step.2 = .overflow ↔ ∃ w op, m.Reads w ∧ op.Covers w ∧ m.Overflows w op := by
  constructor
  · intro h
    cases hfetch : m.fetch with
    | error fault => simp [step, hfetch] at h
    | ok w =>
      have hw := (m.fetch_eq_ok_iff w).mp hfetch
      rw [m.step_of_reads w hw, execute_eq] at h
      cases hop : w.operation? with
      | none => simp [hop] at h
      | some op =>
        rw [hop] at h
        exact ⟨w, op, hw, w.covers_of_operation? op hop, (m.perform_overflow_iff w op).mp h⟩
  · rintro ⟨w, op, hw, hc, ho⟩
    rw [m.step_of_reads w hw, m.execute_of_covers w op hc, perform_overflow_iff]
    exact ho

/-- **When a step fails.** Outside memory nothing can be fetched; inside, `Refuses` lists the words
that are refused. A timer can run past the clock's range, and everything else succeeds. -/
theorem step_outcome (m : Machine κ) :
    (∀ fault, m.step.2 = .failed fault ↔
      (4095 ≤ m.pc.toNat ∧ fault = .outOfBounds (max m.pc.toNat 4096)) ∨
        ∃ w, m.Reads w ∧ m.Refuses w fault) ∧
    (∀ w : Word, ¬ w.Supported ↔
      (w.family = 0 ∧ w ≠ 0x00E0 ∧ w ≠ 0x00EE) ∨
      ((w.family = 5 ∨ w.family = 9) ∧ w.n ≠ 0) ∨
      (w.family = 8 ∧ ((8 ≤ w.n ∧ w.n ≤ 13) ∨ w.n = 15)) ∨
      (w.family = 0xE ∧ w.nn ∉ [0x9E, 0xA1]) ∨
      (w.family = 0xF ∧ w.nn ∉ [0x07, 0x0A, 0x15, 0x18, 0x1E, 0x29, 0x33, 0x55, 0x65])) ∧
    (m.step.2 = .overflow ↔ ∃ w, m.Reads w ∧ w.family = 0xF ∧
      (w.nn = 0x15 ∧ Timer.horizon ≤ m.now + m.delay.period * (m.registers.get w.x).toNat ∨
        w.nn = 0x18 ∧ Timer.horizon ≤ m.now + m.sound.period * (m.registers.get w.x).toNat)) ∧
    (∀ w, m.Reads w → (∀ fault, ¬ m.Refuses w fault) →
      m.step.2.Succeeds ∨ m.step.2 = .overflow) ∧
    (∀ w, m.Reads w → w.family = 0xD → m.step.2 = .wait) := by
  refine ⟨m.step_failed_iff, Word.not_supported_iff_fields, ?_, ?_, ?_⟩
  · rw [step_overflow_iff]
    constructor
    · rintro ⟨w, op, hw, hc, ho⟩
      cases op
      case setDelay => exact ⟨w, hw, hc.1, .inl ⟨hc.2, ho⟩⟩
      case setSound => exact ⟨w, hw, hc.1, .inr ⟨hc.2, ho⟩⟩
      all_goals cases ho
    · rintro ⟨w, hw, hF, ⟨hn, ho⟩ | ⟨hn, ho⟩⟩
      · exact ⟨w, .setDelay, hw, ⟨hF, hn⟩, ho⟩
      · exact ⟨w, .setSound, hw, ⟨hF, hn⟩, ho⟩
  · intro w hw hno
    cases hs : m.step.2 with
    | proceed => exact .inl (.inl rfl)
    | wait => exact .inl (.inr rfl)
    | overflow => exact .inr rfl
    | failed fault =>
      rw [m.step_of_reads w hw, execute_failed_iff] at hs
      exact absurd hs (hno fault)
  · intro w hw hD
    rw [m.step_of_reads w hw, m.execute_of_covers w .draw hD]
    rfl

/-- FX33 needs three bytes and I leaves it two. A sprite at the last byte is drawn all the same. -/
theorem step_outcome_at_end :
    ({ bare [0xF0, 0x33] with index := 4094 } : Machine Script).step.2 =
      .failed (.outOfBounds 4096) ∧
    ({ bare [0xD0, 0x05] with index := 4095 } : Machine Script).step.2 = .wait := by
  constructor
  · apply ((step_outcome _).1 _).mpr
    exact .inr ⟨0xF033, ⟨by decide, by decide +kernel⟩, rfl, by decide, .inl ⟨by decide, by decide⟩⟩
  · obtain ⟨_, _, _, _, hdraw⟩ :=
      step_outcome ({ bare [0xD0, 0x05] with index := 4095 } : Machine Script)
    exact hdraw 0xD005 ⟨by decide, by decide +kernel⟩ (by decide)

/-! ## After a fault -/

omit [Keypad κ] in
theorem refuses_hosted (m : Machine κ) (host : Host κ) (w : Word) (fault : Fault) :
    (m.hosted host).Refuses w fault ↔ m.Refuses w fault := by
  cases fault <;> exact Iff.rfl

/-- Neither the clock nor the keypad has a part in a fault. -/
theorem step_failed_hosted (m : Machine κ) (host : Host κ) (fault : Fault) :
    (m.hosted host).step.2 = .failed fault ↔ m.step.2 = .failed fault := by
  rw [step_failed_iff, step_failed_iff]
  simp only [refuses_hosted]
  exact Iff.rfl

theorem step_failed (m : Machine κ) (fault : Fault) (h : m.step.2 = .failed fault) :
    m.step = (m, .failed fault) := by
  have := m.step_failed_state fault h
  rw [← h]
  exact Prod.ext this rfl

theorem visits_failed (m : Machine κ) (fault : Fault) (h : m.step.2 = .failed fault)
    (hosts : List (Host κ)) : ∀ v ∈ m.visits hosts, v.step = (v, .failed fault) := by
  induction hosts generalizing m with
  | nil => simp [visits]
  | cons host hosts ih =>
    have hstep := (m.hosted host).step_failed fault ((m.step_failed_hosted host fault).mpr h)
    intro v hv
    rw [visits, hstep, List.mem_cons] at hv
    rcases hv with rfl | hv
    · exact hstep
    · exact ih (m.hosted host) (by rw [hstep]) v hv

theorem run_failed (m : Machine κ) (fault : Fault) (h : m.step.2 = .failed fault)
    (hosts : List (Host κ)) : m.run hosts = hosts.getLast?.elim m m.hosted := by
  induction hosts generalizing m with
  | nil => rfl
  | cons host hosts ih =>
    have hstep := (m.hosted host).step_failed fault ((m.step_failed_hosted host fault).mpr h)
    rw [run, hstep, ih (m.hosted host) (by rw [hstep]), List.getLast?_cons]
    cases hosts.getLast? <;> rfl

/-- **A fault leaves no trace.** Whatever fails, the machine is the same after it as before it, so a
step that fails fails in the same way for ever, no matter what clock and keypad do meanwhile. -/
theorem fault_leaves_no_trace (m : Machine κ) (fault : Fault) :
    (∀ w, (m.execute w).2 = .failed fault → (m.execute w).1 = m) ∧
    (m.step.2 = .failed fault → m.step.1 = m) ∧
    (m.push.2 = .failed fault → m.push.1 = m) ∧
    (m.pop.2 = .failed fault → m.pop.1 = m) ∧
    (∀ rom, (m.load rom).2 = .failed fault → (m.load rom).1 = m) ∧
    (m.step.2 = .failed fault → ∀ hosts : List (Host κ),
      (∀ v ∈ m.visits hosts, v.step = (v, .failed fault)) ∧
      m.run hosts = hosts.getLast?.elim m m.hosted) := by
  refine ⟨?_, ?_, ?_, ?_, ?_, ?_⟩
  · intro w
    exact m.execute_failed_state w fault
  · exact m.step_failed_state fault
  · exact m.attempt_failed_state _ _ fault
  · exact m.attempt_failed_state _ _ fault
  · intro rom
    exact m.attempt_failed_state _ _ fault
  · intro h hosts
    exact ⟨m.visits_failed fault h hosts, m.run_failed fault h hosts⟩

/-- A return without a call, asked for again and again while the clock runs and a key goes down. -/
theorem fault_leaves_no_trace_return :
    (bare [0x00, 0xEE]).run [⟨5, {}⟩, ⟨7, { answers := [some 3] }⟩] =
      (bare [0x00, 0xEE]).hosted ⟨7, { answers := [some 3] }⟩ := by
  obtain ⟨_, _, _, _, _, hrun⟩ := fault_leaves_no_trace (bare [0x00, 0xEE]) (.stackUnderflow 0)
  exact (hrun (by decide +kernel) _).2

end Machine

end Chip8
