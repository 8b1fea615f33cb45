import Chip8.Proofs.Control

/-!
# What a program can learn from outside

Clock, random bytes and keypad reach a program only through the instructions that read them. A table
says from which part of a machine an operation carries something into which other. Two machines that
differ in some parts stay alike in the others as long as no operation carries anything from the
former to the latter.
-/

namespace Chip8

namespace Operation

/-- The parts that decide where an operation goes on and with which outcome. -/
def steers : Operation → List Part
  | ret => [.stack]
  | call => [.stack, .limit]
  | jumpOffset | skipIfByte | skipUnlessByte | skipIfSame | skipUnlessSame => [.registers]
  | skipIfKey | skipUnlessKey => [.registers, .keypad]
  | awaitKey => [.keypad]
  | decimal | storeRegisters | loadRegisters => [.index]
  | _ => []

/-- From which parts an operation carries something into which others. -/
def flows : Operation → List (Part × Part)
  | addIndex | glyph => [(.registers, .index)]
  | random => [(.random, .registers)]
  | draw => [(.registers, .screen), (.memory, .screen), (.index, .screen),
      (.memory, .registers), (.index, .registers), (.screen, .registers)]
  | awaitKey => [(.keypad, .registers)]
  | readDelay => [(.delay, .registers), (.clock, .registers)]
  | setDelay => [(.registers, .delay), (.clock, .delay)]
  | setSound => [(.registers, .sound), (.clock, .sound)]
  | decimal | storeRegisters => [(.registers, .memory), (.index, .memory)]
  | loadRegisters => [(.memory, .registers), (.index, .registers)]
  | _ => []

/-- An operation keeps what is in the free parts to them. -/
def Confines (free : List Part) (op : Operation) : Prop :=
  (∀ part ∈ op.steers, part ∉ free) ∧ ∀ flow ∈ op.flows, flow.1 ∈ free → flow.2 ∈ free

theorem confines_sound (op : Operation) : op.Confines [.sound] := by
  cases op <;> simp [Confines, steers, flows]

theorem confines_time (op : Operation) (h : op ≠ readDelay) :
    op.Confines [.delay, .sound, .clock] := by
  cases op <;> simp_all [Confines, steers, flows]

theorem confines_random (op : Operation) (h : op ≠ random) : op.Confines [.random] := by
  cases op <;> simp_all [Confines, steers, flows]

theorem confines_keypad (op : Operation) (h : .keypad ∉ op.parts) : op.Confines [.keypad] := by
  cases op <;> simp_all [Confines, steers, flows, parts]

end Operation

namespace Machine

variable {κ : Type}

/-- The machines are at the same instruction and have the same in every part that is not free. -/
structure Agree (free : List Part) (m m' : Machine κ) : Prop where
  pc : m'.pc = m.pc
  same : ∀ part ∉ free, part.Same m m'

/-- The outcomes are the same and the machines agree. -/
structure Alike (free : List Part) (r r' : Machine κ × Outcome) : Prop where
  outcome : r'.2 = r.2
  agree : r.1.Agree free r'.1

variable {free : List Part} {m m' : Machine κ}

theorem Agree.source (h : m.Agree free m') {op : Operation} (hop : op.Confines free)
    {target : Part} (htarget : target ∉ free) (source : Part)
    (hflow : (source, target) ∈ op.flows) : source.Same m m' := by
  apply h.same
  intro hsource
  exact htarget (hop.2 _ hflow hsource)

theorem Agree.steer (h : m.Agree free m') {op : Operation} (hop : op.Confines free) (part : Part)
    (hpart : part ∈ op.steers) : part.Same m m' :=
  h.same part (hop.1 part hpart)

/-! ## Where it goes on -/

theorem Agree.refusal (h : m.Agree free m') (w : Word) {op : Operation} (hop : op.Confines free) :
    m'.refusal w op = m.refusal w op := by
  have hsteer := fun part => h.steer hop part
  cases op
  case native => simp only [Machine.refusal, h.pc]
  case ret =>
    have hstack : m'.stack = m.stack := hsteer .stack (by decide)
    simp only [Machine.refusal, hstack, h.pc]
  case call =>
    have hstack : m'.stack = m.stack := hsteer .stack (by decide)
    have hlimit : m'.stackLimit = m.stackLimit := hsteer .limit (by decide)
    simp only [Machine.refusal, hstack, hlimit, h.pc]
  case decimal | storeRegisters | loadRegisters =>
    have hindex : m'.index = m.index := hsteer .index (by decide)
    simp only [Machine.refusal, hindex]
  all_goals rfl

variable [Keypad κ]

theorem Agree.destination (h : m.Agree free m') (w : Word) {op : Operation}
    (hop : op.Confines free) :
    m'.destination w (Keypad.read m'.keypad).1 op =
      m.destination w (Keypad.read m.keypad).1 op := by
  have hsteer := fun part => h.steer hop part
  cases op
  case ret =>
    have hstack : m'.stack = m.stack := hsteer .stack (by decide)
    dsimp only [Machine.destination]
    rw [hstack]
  case jumpOffset =>
    have hregisters : m'.registers = m.registers := hsteer .registers (by decide)
    dsimp only [Machine.destination]
    rw [hregisters]
  case skipIfByte | skipUnlessByte | skipIfSame | skipUnlessSame =>
    have hregisters : m'.registers = m.registers := hsteer .registers (by decide)
    dsimp only [Machine.destination]
    rw [hregisters, h.pc]
    rfl
  case skipIfKey | skipUnlessKey =>
    have hregisters : m'.registers = m.registers := hsteer .registers (by decide)
    have hkeypad : m'.keypad = m.keypad := hsteer .keypad (by decide)
    dsimp only [Machine.destination]
    rw [hregisters, hkeypad, h.pc]
  case awaitKey =>
    have hkeypad : m'.keypad = m.keypad := hsteer .keypad (by decide)
    dsimp only [Machine.destination]
    rw [hkeypad, h.pc]
  case jump | call => rfl
  all_goals
    dsimp only [Machine.destination]
    rw [h.pc]
    rfl

theorem Agree.pauses (h : m.Agree free m') {op : Operation} (hop : op.Confines free) :
    op.pauses (Keypad.read m'.keypad).1 = op.pauses (Keypad.read m.keypad).1 := by
  cases op
  case awaitKey =>
    have hkeypad : m'.keypad = m.keypad := h.steer hop .keypad (by decide)
    rw [hkeypad]
  all_goals rfl

/-! ## What it leaves behind -/

omit [Keypad κ] in
theorem attempt_congr {α β : Type} (f : Machine κ → β) {result result' : Except Fault α}
    {next next' : α → Machine κ} (hok : (m.attempt result next).2.Succeeds)
    (hresult : result' = result) (hnext : ∀ a, f (next' a) = f (next a)) :
    f (m'.attempt result' next').1 = f (m.attempt result next).1 := by
  obtain ⟨a, rfl, _⟩ := attempt_succeeds _ _ _ hok
  rw [hresult]
  exact hnext a

theorem Agree.registers (h : m.Agree free m') (w : Word) {op : Operation} (hop : op.Confines free)
    (hok : (m.perform w op).2.Succeeds) (hfree : .registers ∉ free)
    (hwrites : .registers ∈ op.parts) :
    (m'.perform w op).1.registers = (m.perform w op).1.registers := by
  have hown : m'.registers = m.registers := h.same .registers hfree
  have hsource := h.source hop hfree
  cases op
  case setByte | addByte | arithmetic => simp only [perform, assign, advance, hown]
  case readDelay =>
    have hdelay : m'.delay = m.delay := hsource .delay (by decide)
    have hnow : m'.now = m.now := hsource .clock (by decide)
    simp only [perform, assign, advance, delayNow, hown, hdelay, hnow]
  case random =>
    have hrandom : m'.random = m.random := hsource .random (by decide)
    simp only [perform, assign, advance, hown, hrandom]
  case draw =>
    have hmemory : m'.memory = m.memory := hsource .memory (by decide)
    have hindex : m'.index = m.index := hsource .index (by decide)
    have hscreen : m'.screen = m.screen := hsource .screen (by decide)
    simp only [perform, drawSprite, advance, hown, hmemory, hindex, hscreen]
  case awaitKey =>
    have hkeypad : m'.keypad = m.keypad := hsource .keypad (by decide)
    simp only [perform, awaitKey, hkeypad]
    split <;> simp only [assign, advance, hown]
  case loadRegisters =>
    have hmemory : m'.memory = m.memory := hsource .memory (by decide)
    have hindex : m'.index = m.index := hsource .index (by decide)
    apply attempt_congr (·.registers) hok
    · rw [hmemory, hindex]
    · intro bytes
      simp only [advance, hown]
  all_goals simp [Operation.parts] at hwrites

theorem Agree.memory (h : m.Agree free m') (w : Word) {op : Operation} (hop : op.Confines free)
    (hok : (m.perform w op).2.Succeeds) (hfree : .memory ∉ free) (hwrites : .memory ∈ op.parts) :
    (m'.perform w op).1.memory = (m.perform w op).1.memory := by
  have hown : m'.memory = m.memory := h.same .memory hfree
  have hsource := h.source hop hfree
  cases op
  case decimal | storeRegisters =>
    have hregisters : m'.registers = m.registers := hsource .registers (by decide)
    have hindex : m'.index = m.index := hsource .index (by decide)
    apply attempt_congr (·.memory) hok
    · rw [hregisters, hindex]
    · intro _
      simp only [advance, hown, hregisters, hindex]
  all_goals simp [Operation.parts] at hwrites

theorem Agree.stack (h : m.Agree free m') (w : Word) {op : Operation} (hop : op.Confines free)
    (hok : (m.perform w op).2.Succeeds) (hwrites : .stack ∈ op.parts) :
    (m'.perform w op).1.stack = (m.perform w op).1.stack := by
  have hsteer := fun part => h.steer hop part
  cases op
  case ret =>
    have hstack : m'.stack = m.stack := hsteer .stack (by decide)
    apply attempt_congr (·.stack) hok
    · simp only [newestCall, hstack, h.pc]
    · intro _
      simp only [advance, hstack]
  case call =>
    have hstack : m'.stack = m.stack := hsteer .stack (by decide)
    have hlimit : m'.stackLimit = m.stackLimit := hsteer .limit (by decide)
    apply attempt_congr (·.stack) hok
    · simp only [roomToCall, hstack, hlimit, h.pc]
    · intro _
      simp only [hstack, h.pc]
  all_goals simp [Operation.parts] at hwrites

theorem Agree.index (h : m.Agree free m') (w : Word) {op : Operation} (hop : op.Confines free)
    (hfree : .index ∉ free) (hwrites : .index ∈ op.parts) :
    (m'.perform w op).1.index = (m.perform w op).1.index := by
  have hown : m'.index = m.index := h.same .index hfree
  have hsource := h.source hop hfree
  cases op
  case setIndex => rfl
  case addIndex | glyph =>
    have hregisters : m'.registers = m.registers := hsource .registers (by decide)
    simp only [perform, advance, hown, hregisters]
  all_goals simp [Operation.parts] at hwrites

theorem Agree.screen (h : m.Agree free m') (w : Word) {op : Operation} (hop : op.Confines free)
    (hfree : .screen ∉ free) (hwrites : .screen ∈ op.parts) :
    (m'.perform w op).1.screen = (m.perform w op).1.screen := by
  have hown : m'.screen = m.screen := h.same .screen hfree
  have hsource := h.source hop hfree
  cases op
  case clearScreen => rfl
  case draw =>
    have hregisters : m'.registers = m.registers := hsource .registers (by decide)
    have hmemory : m'.memory = m.memory := hsource .memory (by decide)
    have hindex : m'.index = m.index := hsource .index (by decide)
    simp only [perform, drawSprite, advance, hown, hregisters, hmemory, hindex]
  all_goals simp [Operation.parts] at hwrites

theorem Agree.timer (h : m.Agree free m') (w : Word) {op : Operation} (hop : op.Confines free)
    (part : Part) (htimer : part = .delay ∨ part = .sound) (hfree : part ∉ free)
    (hwrites : part ∈ op.parts) : part.Same (m.perform w op).1 (m'.perform w op).1 := by
  have hown := h.same part hfree
  have hsource := h.source hop hfree
  rcases htimer with rfl | rfl
  all_goals
    cases op <;> simp [Operation.parts] at hwrites
    have hregisters : m'.registers = m.registers := hsource .registers (by decide)
    have hnow : m'.now = m.now := hsource .clock (by decide)
    simp only [Part.Same] at hown
    simp only [Part.Same, Machine.perform, hown, hregisters, hnow]
    split
    · rfl
    · exact hown

theorem Agree.part (h : m.Agree free m') (w : Word) {op : Operation} (hop : op.Confines free)
    (hok : (m.perform w op).2.Succeeds) (part : Part) (hfree : part ∉ free) :
    part.Same (m.perform w op).1 (m'.perform w op).1 := by
  by_cases hwrites : part ∈ op.parts
  · cases part
    case memory => exact h.memory w hop hok hfree hwrites
    case registers => exact h.registers w hop hok hfree hwrites
    case index => exact h.index w hop hfree hwrites
    case stack => exact h.stack w hop hok hwrites
    case delay => exact h.timer w hop .delay (.inl rfl) hfree hwrites
    case sound => exact h.timer w hop .sound (.inr rfl) hfree hwrites
    case screen => exact h.screen w hop hfree hwrites
    case keypad =>
      have hkeypad : m'.keypad = m.keypad := h.same .keypad hfree
      simp only [Part.Same, perform_keypad, hkeypad]
    case random =>
      have hrandom : m'.random = m.random := h.same .random hfree
      simp only [Part.Same, perform_random, hrandom]
    case clock => exact absurd hwrites op.clock_not_mem_parts
    case limit => exact absurd hwrites op.limit_not_mem_parts
  · have hsame := m.perform_same w op part hwrites
    have hsame' := m'.perform_same w op part hwrites
    have hown := h.same part hfree
    cases part <;> exact hsame'.trans (Eq.trans hown hsame.symm)

theorem Agree.perform (h : m.Agree free m') (w : Word) {op : Operation} (hop : op.Confines free)
    (hcalm : (m.perform w op).2 ≠ .overflow) (hcalm' : (m'.perform w op).2 ≠ .overflow) :
    Alike free (m.perform w op) (m'.perform w op) := by
  have hrefusal := h.refusal w hop
  rcases m.perform_verdict w op with ⟨fault, hf, _, hr⟩ | ⟨_, _, hr⟩ | ⟨hf, _, hok⟩
  · -- Both are refused, and nothing has changed.
    have hr' := (m'.perform_failed_iff w op fault).mpr (hrefusal.trans hf)
    have hm' := m'.perform_failed_state w op fault hr'
    rw [hr]
    exact ⟨hr', by rw [hm']; exact h⟩
  · exact absurd (congrArg Prod.snd hr) hcalm
  · have hok' : (m'.perform w op).2.Succeeds := by
      rcases m'.perform_verdict w op with ⟨_, hf', _, _⟩ | ⟨_, _, hr'⟩ | ⟨_, _, hok'⟩
      · rw [hrefusal, hf] at hf'
        cases hf'
      · exact absurd (congrArg Prod.snd hr') hcalm'
      · exact hok'
    refine ⟨?_, ?_, h.part w hop hok⟩
    · rw [m.perform_outcome w op hok, m'.perform_outcome w op hok', h.pauses hop]
    · rw [m.perform_pc w op hok, m'.perform_pc w op hok', h.destination w hop]

/-! ## Steps -/

theorem Agree.step (h : m.Agree free m') (hmemory : .memory ∉ free)
    (hops : ∀ (w : Word) (op : Operation), m.Reads w → op.Covers w → op.Confines free)
    (hcalm : m.step.2 ≠ .overflow) (hcalm' : m'.step.2 ≠ .overflow) :
    Alike free m.step m'.step := by
  have hsame : m'.memory = m.memory := h.same .memory hmemory
  have hfetch : m'.fetch = m.fetch := by rw [fetch, fetch, hsame, h.pc]
  unfold Machine.step at hcalm hcalm' ⊢
  rw [hfetch] at hcalm' ⊢
  cases hw : m.fetch with
  | error fault => exact ⟨rfl, h⟩
  | ok w =>
    rw [hw] at hcalm hcalm'
    simp only [execute_eq] at hcalm hcalm' ⊢
    cases hop : w.operation? with
    | none => exact ⟨by rw [Option.elim_none, Option.elim_none, h.pc], h⟩
    | some op =>
      rw [hop] at hcalm hcalm'
      have hc := hops w op ((m.fetch_eq_ok_iff w).mp hw) (w.covers_of_operation? op hop)
      exact h.perform w hc hcalm hcalm'

end Machine

/-! ## Runs -/

/-- What the host does before a step: the clock shows a reading, and keys go down or up. -/
structure Turn (κ : Type) where
  now : Nat
  keys : κ → κ

namespace Machine

variable {κ : Type} {free : List Part} {m m' : Machine κ}

def turned (m : Machine κ) (turn : Turn κ) : Machine κ :=
  m.hosted ⟨turn.now, turn.keys m.keypad⟩

theorem Agree.turned (h : m.Agree free m') (turn turn' : Turn κ)
    (hnow : .clock ∉ free → turn'.now = turn.now)
    (hkeys : .keypad ∉ free → turn'.keys = turn.keys) :
    (m.turned turn).Agree free (m'.turned turn') := by
  refine ⟨h.pc, ?_⟩
  intro part hpart
  have hsame := h.same part hpart
  cases part
  case clock => exact hnow hpart
  case keypad =>
    have hkeypad : m'.keypad = m.keypad := hsame
    simp only [Part.Same, Machine.turned, hosted, hkeys hpart, hkeypad]
  all_goals exact hsame

variable [Keypad κ]

/-- The machine that makes step number `n`. -/
def before (m : Machine κ) (turns : Nat → Turn κ) : Nat → Machine κ
  | 0 => m.turned (turns 0)
  | n + 1 => (m.before turns n).step.1.turned (turns (n + 1))

theorem Agree.before (h : m.Agree free m') (hmemory : .memory ∉ free) (turns turns' : Nat → Turn κ)
    (hnow : .clock ∉ free → ∀ k, (turns' k).now = (turns k).now)
    (hkeys : .keypad ∉ free → ∀ k, (turns' k).keys = (turns k).keys) (n : Nat)
    (hops : ∀ k ≤ n, ∀ (w : Word) (op : Operation), (m.before turns k).Reads w → op.Covers w →
      op.Confines free)
    (hcalm : ∀ k ≤ n, (m.before turns k).step.2 ≠ .overflow ∧
      (m'.before turns' k).step.2 ≠ .overflow) :
    Alike free (m.before turns n).step (m'.before turns' n).step := by
  induction n with
  | zero =>
    have hstart := h.turned (turns 0) (turns' 0) (hnow · 0) (hkeys · 0)
    have hlast := hcalm 0 (Nat.le_refl 0)
    exact hstart.step hmemory (hops 0 (Nat.le_refl 0)) hlast.1 hlast.2
  | succ n ih =>
    have hprev := ih (fun k hk => hops k (by omega)) (fun k hk => hcalm k (by omega))
    have hstart := hprev.agree.turned (turns (n + 1)) (turns' (n + 1)) (hnow · _) (hkeys · _)
    have hlast := hcalm (n + 1) (Nat.le_refl _)
    exact hstart.step hmemory (hops (n + 1) (Nat.le_refl _)) hlast.1 hlast.2

/-- **What a program can learn from outside.** Two runs are alike in all but what they started with
different: in the sound timer always; in the timers and the clock while no delay is read; in the
random bytes while none is drawn; in the keypad while no key is asked for. -/
theorem runs_alike_of_unread (m m' : Machine κ) (turns turns' : Nat → Turn κ) (n : Nat)
    (hcalm : ∀ k ≤ n, (m.before turns k).step.2 ≠ .overflow ∧
      (m'.before turns' k).step.2 ≠ .overflow) :
    (m.Agree [.sound] m' → turns' = turns →
      Alike [.sound] (m.before turns n).step (m'.before turns' n).step) ∧
    (m.Agree [.delay, .sound, .clock] m' → (∀ k, (turns' k).keys = (turns k).keys) →
      (∀ k ≤ n, ∀ w, (m.before turns k).Reads w → ¬ (w.family = 0xF ∧ w.nn = 0x07)) →
      Alike [.delay, .sound, .clock] (m.before turns n).step (m'.before turns' n).step) ∧
    (m.Agree [.random] m' → turns' = turns →
      (∀ k ≤ n, ∀ w, (m.before turns k).Reads w → w.family ≠ 0xC) →
      Alike [.random] (m.before turns n).step (m'.before turns' n).step) ∧
    (m.Agree [.keypad] m' → (∀ k, (turns' k).now = (turns k).now) →
      (∀ k ≤ n, ∀ w, (m.before turns k).Reads w →
        ¬ (w.family = 0xE ∧ (w.nn = 0x9E ∨ w.nn = 0xA1) ∨ w.family = 0xF ∧ w.nn = 0x0A)) →
      Alike [.keypad] (m.before turns n).step (m'.before turns' n).step) := by
  refine ⟨?_, ?_, ?_, ?_⟩
  · rintro h rfl
    apply h.before (by decide) _ _ (fun _ _ => rfl) (fun _ _ => rfl) n _ hcalm
    intro k _ w op _ _
    exact op.confines_sound
  · intro h hkeys hno
    apply h.before (by decide) _ _ (by simp) (fun _ => hkeys) n _ hcalm
    intro k hk w op hw hc
    apply op.confines_time
    rintro rfl
    exact hno k hk w hw hc
  · rintro h rfl hno
    apply h.before (by decide) _ _ (fun _ _ => rfl) (fun _ _ => rfl) n _ hcalm
    intro k hk w op hw hc
    apply op.confines_random
    rintro rfl
    exact hno k hk w hw hc
  · intro h hnow hno
    apply h.before (by decide) _ _ (fun _ => hnow) (by simp) n _ hcalm
    intro k hk w op hw hc
    apply op.confines_keypad
    rw [op.reads_keypad_iff w hc]
    exact hno k hk w hw

/-- A program that sets the delay timer to five. -/
def delaySetter : Machine Script := bare [0x60, 0x05, 0xF0, 0x15]

/-- The delay timer is set to five with another sound timer, at other times, with other random bytes
and while a key goes down. -/
theorem runs_alike_of_unread_delay_set :
    ({ delaySetter with sound := { period := 1 } }.before (fun _ => ⟨0, id⟩) 1).step.1.delay =
      (delaySetter.before (fun _ => ⟨0, id⟩) 1).step.1.delay ∧
    ({ delaySetter with delay := { period := 1 } }.before (fun k => ⟨7 * k, id⟩) 1).step.1.registers =
      (delaySetter.before (fun _ => ⟨0, id⟩) 1).step.1.registers ∧
    ({ delaySetter with random := .ofSeed 1 }.before (fun _ => ⟨0, id⟩) 1).step.1.delay =
      (delaySetter.before (fun _ => ⟨0, id⟩) 1).step.1.delay ∧
    (delaySetter.before (fun _ => ⟨0, fun _ => { answers := [some 3] }⟩) 1).step.1.delay =
      (delaySetter.before (fun _ => ⟨0, id⟩) 1).step.1.delay := by
  have hreads : ∀ k ≤ 1, ∀ w, (delaySetter.before (fun _ => ⟨0, id⟩) k).Reads w →
      w = 0x6005 ∨ w = 0xF015 := by
    intro k hk w hw
    obtain rfl | rfl := Nat.le_one_iff_eq_zero_or_eq_one.mp hk
    · exact .inl (hw.unique ⟨by decide, by decide +kernel⟩)
    · exact .inr (hw.unique ⟨by decide +kernel, by decide +kernel⟩)
  refine ⟨?_, ?_, ?_, ?_⟩
  · have h := runs_alike_of_unread delaySetter { delaySetter with sound := { period := 1 } }
      (fun _ => ⟨0, id⟩) (fun _ => ⟨0, id⟩) 1 (by decide +kernel)
    have hagree : delaySetter.Agree [.sound] { delaySetter with sound := { period := 1 } } := by
      refine ⟨rfl, fun part hpart => ?_⟩
      cases part
      case sound => simp at hpart
      all_goals rfl
    have halike := h.1 hagree rfl
    exact halike.agree.same .delay (by decide)
  · have h := runs_alike_of_unread delaySetter { delaySetter with delay := { period := 1 } }
      (fun _ => ⟨0, id⟩) (fun k => ⟨7 * k, id⟩) 1 (by decide +kernel)
    have hagree : delaySetter.Agree [.delay, .sound, .clock]
        { delaySetter with delay := { period := 1 } } := by
      refine ⟨rfl, fun part hpart => ?_⟩
      cases part
      case delay => simp at hpart
      all_goals rfl
    have halike := h.2.1 hagree (fun _ => rfl)
      (fun k hk w hw => by rcases hreads k hk w hw with rfl | rfl <;> decide)
    exact halike.agree.same .registers (by decide)
  · have h := runs_alike_of_unread delaySetter { delaySetter with random := .ofSeed 1 }
      (fun _ => ⟨0, id⟩) (fun _ => ⟨0, id⟩) 1 (by decide +kernel)
    have hagree : delaySetter.Agree [.random] { delaySetter with random := .ofSeed 1 } := by
      refine ⟨rfl, fun part hpart => ?_⟩
      cases part
      case random => simp at hpart
      all_goals rfl
    have halike := h.2.2.1 hagree rfl
      (fun k hk w hw => by rcases hreads k hk w hw with rfl | rfl <;> decide)
    exact halike.agree.same .delay (by decide)
  · have h := runs_alike_of_unread delaySetter delaySetter (fun _ => ⟨0, id⟩)
      (fun _ => ⟨0, fun _ => { answers := [some 3] }⟩) 1 (by decide +kernel)
    have halike := h.2.2.2 ⟨rfl, fun part _ => part.same_refl _⟩ (fun _ => rfl)
      (fun k hk w hw => by rcases hreads k hk w hw with rfl | rfl <;> decide)
    exact halike.agree.same .delay (by decide)

end Machine

end Chip8
