import Chip8.Proofs.TimerRate

/-!
# What has been executed

Whatever is asked of a machine leaves a history: the words that were executed, each with the machine
it was executed in. Random bytes and timers can be told from it. A byte depends on the number of
draws before it, and a timer on the newest word that set it.
-/

namespace Chip8

instance Outcome.decidableSucceeds (o : Outcome) : Decidable o.Succeeds :=
  inferInstanceAs (Decidable (_ ∨ _))

/-- A word that was executed, and the machine as it was before. -/
structure Execution (κ : Type) where
  machine : Machine κ
  word : Word

/-- What the register that the word names held. -/
def Execution.vx {κ : Type} (e : Execution κ) : UInt8 := e.machine.registers.get e.word.x

namespace Machine

variable {κ : Type} [Keypad κ]

/-! ## Histories -/

/-- The word that a request wants executed, if it wants one. -/
def wanted (m : Machine κ) : Request κ → Option Word
  | .step => m.fetch.toOption
  | .execute w => some w
  | _ => none

/-- The same, unless executing it fails. -/
def executed (m : Machine κ) (request : Request κ) : Option Word :=
  (m.wanted request).filter fun w => (m.execute w).2.Succeeds

/-- The words that requests have executed, oldest first. -/
def history (m : Machine κ) : List (Request κ) → List (Execution κ)
  | [] => []
  | request :: requests =>
    ((m.executed request).map (⟨m, ·⟩)).toList ++ (m.obey request).history requests

theorem history_concat (m : Machine κ) (requests : List (Request κ)) (request : Request κ) :
    m.history (requests ++ [request]) = m.history requests ++
      (((requests.foldl obey m).executed request).map (⟨requests.foldl obey m, ·⟩)).toList := by
  induction requests generalizing m with
  | nil => simp [history]
  | cons first requests ih => simp [history, ih]

omit [Keypad κ] in
theorem wanted_step_iff (m : Machine κ) (w : Word) : m.wanted .step = some w ↔ m.Reads w := by
  rw [← fetch_eq_ok_iff, wanted]
  cases m.fetch <;> simp [Except.toOption]

theorem obey_of_wanted (m : Machine κ) (request : Request κ) (w : Word)
    (h : m.wanted request = some w) : m.obey request = (m.execute w).1 := by
  cases request
  case step => rw [obey, m.step_of_reads w ((m.wanted_step_iff w).mp h)]
  case execute w' =>
    cases h
    rfl
  all_goals cases h

theorem obey_of_executed (m : Machine κ) (request : Request κ) (w : Word)
    (h : m.executed request = some w) :
    ∃ op : Operation, op.Covers w ∧ (m.perform w op).2.Succeeds ∧
      m.obey request = (m.perform w op).1 := by
  obtain ⟨hw, hok⟩ := Option.filter_eq_some_iff.mp h
  have hok : (m.execute w).2.Succeeds := by simpa using hok
  obtain ⟨op, hc, hop⟩ := m.execute_succeeds w hok
  rw [m.obey_of_wanted request w hw]
  rw [hop] at hok ⊢
  exact ⟨op, hc, hok, rfl⟩

/-- Random bytes and timers are out of reach for all other requests. -/
theorem obey_of_not_executed (m : Machine κ) (request : Request κ) (h : m.executed request = none)
    (part : Part) (hpart : part ∈ [.random, .delay, .sound]) : part.Same m (m.obey request) := by
  cases hw : m.wanted request with
  | some w =>
    rw [m.obey_of_wanted request w hw]
    have hfails : ¬ (m.execute w).2.Succeeds := by simpa [executed, hw] using h
    rw [(m.execute_state w).resolve_right hfails]
    exact part.same_refl m
  | none =>
    cases request
    case step =>
      cases hfetch : m.fetch with
      | error fault =>
        simp only [obey, step, hfetch]
        exact part.same_refl m
      | ok w =>
        rw [(m.wanted_step_iff w).mpr ((m.fetch_eq_ok_iff w).mp hfetch)] at hw
        cases hw
    case execute => cases hw
    case push | pop | load =>
      apply attempt_state (part.Same m) m _ _ (part.same_refl m)
      intro _ _
      cases part <;> simp at hpart <;> rfl
    all_goals cases part <;> simp at hpart <;> rfl

/-! ## Random bytes -/

/-- How many random bytes have been drawn, whatever was kept of them. -/
def draws (history : List (Execution κ)) : Nat := history.countP (·.word.family == 0xC)

theorem random_obey (m : Machine κ) (request : Request κ) :
    (m.obey request).random =
      if (m.executed request).any (·.family == 0xC) then m.random.next else m.random := by
  cases hw : m.executed request with
  | none => exact m.obey_of_not_executed request hw .random (by simp)
  | some w =>
    obtain ⟨op, hc, _, hobey⟩ := m.obey_of_executed request w hw
    have hop : op = .random ↔ w.family = 0xC := (w.covers_iff_eq op .random hc).symm
    simp only [hobey, perform_random, hop, Option.any_some, beq_iff_eq]

theorem random_obey_all (m : Machine κ) (requests : List (Request κ)) :
    (requests.foldl obey m).random.key = m.random.key ∧
      (requests.foldl obey m).random.drawn = m.random.drawn + draws (m.history requests) := by
  induction requests generalizing m with
  | nil => exact ⟨rfl, rfl⟩
  | cons request requests ih =>
    obtain ⟨hkey, hdrawn⟩ := ih (m.obey request)
    rw [List.foldl_cons, hkey, hdrawn, random_obey, history]
    unfold draws
    cases hw : m.executed request with
    | none => simp
    | some w =>
      by_cases hC : w.family = 0xC
      · simp [hC, Random.key_next, Random.drawn_next]
        omega
      · simp [hC]

theorem obey_random (m : Machine κ) (request : Request κ) (w : Word)
    (hw : m.wanted request = some w) (hC : w.family = 0xC) :
    m.executed request = some w ∧ (m.obey request).registers.get w.x =
      Random.byteAt m.random.key m.random.drawn &&& w.nn := by
  have hperform : m.execute w = m.perform w .random := m.execute_of_covers w .random hC
  constructor
  · simp [executed, hw, hperform, perform, Outcome.Succeeds]
  · rw [m.obey_of_wanted request w hw, hperform, ← Random.draw_fst]
    simp [perform, assign, advance, Registers.get_set]

omit [Keypad κ] in
theorem random_of_new? {settings : Settings} {keypad : κ} {entropy : UInt64} {fresh : Machine κ}
    (h : new? settings keypad entropy = some fresh) :
    fresh.random = .ofSeed (settings.seed.getD entropy) := by
  obtain ⟨period, _, rfl⟩ := Option.map_eq_some_iff.mp h
  rfl

/-- **Random bytes.** Whatever was asked of a machine before, CXNN goes through and leaves in VX, as far
as NN lets it, the byte that the seed fixes for the number of draws before it. A draw counts whatever
its NN is. -/
theorem random_byte_of_seed (settings : Settings) (keypad : κ) (entropy seed : UInt64)
    (fresh : Machine κ) (hseed : settings.seed = some seed)
    (hnew : new? settings keypad entropy = some fresh) (requests : List (Request κ))
    (request : Request κ) (m : Machine κ) (w : Word) (k : Nat)
    (hm : m = requests.foldl obey fresh) (hw : m.wanted request = some w) (hC : w.family = 0xC)
    (hk : k = draws (fresh.history requests)) :
    m.executed request = some w ∧
    (m.obey request).registers.get w.x =
      ((ChaCha.block (Random.expand seed) (UInt64.ofNat (k / 16))).get
        ⟨k % 16, Nat.mod_lt k (by decide)⟩).toUInt8 &&& w.nn := by
  obtain ⟨hok, hbyte⟩ := m.obey_random request w hw hC
  obtain ⟨hkey, hdrawn⟩ := fresh.random_obey_all requests
  rw [random_of_new? hnew, hseed, Option.getD_some] at hkey hdrawn
  have hk' : m.random.drawn = k := by
    rw [hm, hdrawn, hk]
    exact Nat.zero_add _
  have hseeded : m.random.key = Random.expand seed := by
    rw [hm]
    exact hkey
  refine ⟨hok, hbyte.trans ?_⟩
  rw [hseeded, hk']
  rfl

/-- A machine as it is switched on, with timers that tick once a second. -/
def switchedOn (seed : UInt64) : Machine Script where
  delay := { period := Duration.second }
  sound := { period := Duration.second }
  keypad := {}
  random := .ofSeed seed

theorem timerPeriod?_standard (seed : UInt64) :
    ({ seed := some seed } : Settings).timerPeriod? = some Duration.second :=
  show ({} : Settings).timerPeriod? = some Duration.second by decide +kernel

theorem new?_switchedOn (seed : UInt64) :
    new? { seed := some seed } ({} : Script) 0 = some (switchedOn seed) := by
  rw [new?, timerPeriod?_standard]
  rfl

/-- Sixteen draws that keep nothing use up the first block of words. -/
theorem random_byte_of_seed_next_block :
    ((List.foldl obey (switchedOn 1) (List.replicate 16 (.execute 0xC000))).obey
      (.execute 0xC1FF)).registers.get 1 = 166 := by
  obtain ⟨_, hbyte⟩ := random_byte_of_seed { seed := some 1 } ({} : Script) 0 1 (switchedOn 1) rfl
    (new?_switchedOn 1) (List.replicate 16 (.execute 0xC000)) (.execute 0xC1FF) _ 0xC1FF 16 rfl rfl
    (by decide) (by decide +kernel)
  refine hbyte.trans ?_
  decide +kernel

end Machine

/-! ## Timers -/

inductive Countdown where
  | delay
  | sound

namespace Countdown

def timer {κ : Type} (m : Machine κ) : Countdown → Timer
  | delay => m.delay
  | sound => m.sound

def setter : Countdown → Operation
  | delay => .setDelay
  | sound => .setSound

def part : Countdown → Part
  | delay => .delay
  | sound => .sound

/-- The low byte of the words that set it. -/
def nn : Countdown → UInt8
  | delay => 0x15
  | sound => 0x18

theorem covers_setter_iff (c : Countdown) (w : Word) :
    c.setter.Covers w ↔ w.family = 0xF ∧ w.nn = c.nn := by
  cases c <;> exact Iff.rfl

end Countdown

namespace Machine

variable {κ : Type} [Keypad κ]

theorem timer_perform (m : Machine κ) (w : Word) (op : Operation) (c : Countdown)
    (h : op ≠ c.setter) : c.timer (m.perform w op).1 = c.timer m := by
  have hpart : c.part ∉ op.parts := by
    cases c <;> cases op <;> simp_all [Countdown.part, Countdown.setter, Operation.parts]
  have hsame := m.perform_same w op c.part hpart
  cases c <;> exact hsame

theorem timer_perform_setter (m : Machine κ) (w : Word) (c : Countdown)
    (hok : (m.perform w c.setter).2.Succeeds) :
    (c.timer m).set? (m.registers.get w.x).toNat m.now =
      some (c.timer (m.perform w c.setter).1) := by
  cases c
  all_goals
    simp only [Countdown.setter, Countdown.timer, perform] at hok ⊢
    split at hok
    · rename_i hset
      rw [hset]
      rfl
    · simp [Outcome.Succeeds] at hok

/-- The newest FXNN in a history, for a given NN. -/
def newest (nn : UInt8) (history : List (Execution κ)) : Option (Execution κ) :=
  (history.filter fun e => e.word.family = 0xF ∧ e.word.nn = nn).getLast?

omit [Keypad κ] in
theorem newest_concat (nn : UInt8) (history : List (Execution κ)) (e : Execution κ) :
    newest nn (history ++ [e]) =
      if e.word.family = 0xF ∧ e.word.nn = nn then some e else newest nn history := by
  unfold newest
  rw [List.filter_append, List.filter_singleton]
  split_ifs with h
  · simp [h]
  · simp [h]

/-- The timer is a new one that was set once, as by this execution; without one it is just new. -/
def SetBy (period : Nat) (timer : Timer) : Option (Execution κ) → Prop
  | none => timer = { period }
  | some e => ({ period } : Timer).set? e.vx.toNat e.machine.now = some timer

omit [Keypad κ] in
theorem SetBy.period_eq {period : Nat} {timer : Timer} {last : Option (Execution κ)}
    (h : SetBy period timer last) : timer.period = period := by
  cases last with
  | none => rw [h]
  | some e => exact Timer.period_set? h

theorem SetBy.obey {period : Nat} {m : Machine κ} {c : Countdown} {history : List (Execution κ)}
    (h : SetBy period (c.timer m) (newest c.nn history)) (request : Request κ) :
    SetBy period (c.timer (m.obey request))
      (newest c.nn (history ++ ((m.executed request).map (⟨m, ·⟩)).toList)) := by
  cases hw : m.executed request with
  | none =>
    have hsame := m.obey_of_not_executed request hw c.part (by cases c <;> simp [Countdown.part])
    have htimer : c.timer (m.obey request) = c.timer m := by cases c <;> exact hsame
    simpa [htimer] using h
  | some w =>
    obtain ⟨op, hc, hok, hobey⟩ := m.obey_of_executed request w hw
    rw [hobey, Option.map_some, Option.toList_some, newest_concat]
    have hsets := (c.covers_setter_iff w).symm.trans (w.covers_iff_eq op c.setter hc)
    dsimp only
    split_ifs with hF
    · -- What the timer was before does not matter, its period apart.
      obtain rfl := hsets.mp hF
      have hset := m.timer_perform_setter w c hok
      rw [← h.period_eq]
      exact hset
    · rw [m.timer_perform w op c (mt hsets.mpr hF)]
      exact h

theorem setBy_newest {period : Nat} {fresh : Machine κ} {c : Countdown}
    (h : c.timer fresh = { period }) (requests : List (Request κ)) :
    SetBy period (c.timer (requests.foldl Machine.obey fresh))
      (newest c.nn (fresh.history requests)) := by
  -- A later word may set the timer anew, so the induction takes requests off the end.
  induction requests using List.reverseRecOn with
  | nil => exact h
  | append_singleton requests request ih =>
    rw [history_concat, List.foldl_concat]
    exact ih.obey request

/-- A reading is that of a new timer that was set once, as by this execution; without one it is zero. -/
def ReadsAs (period now : Nat) (reading : UInt8) : Option (Execution κ) → Prop
  | none => reading = 0
  | some e => ∃ timer, ({ period } : Timer).set? e.vx.toNat e.machine.now = some timer ∧
      reading = timer.get now

omit [Keypad κ] in
theorem SetBy.readsAs {period : Nat} {timer : Timer} {last : Option (Execution κ)}
    (h : SetBy period timer last) (now : Nat) : ReadsAs period now (timer.get now) last := by
  cases last with
  | none =>
    obtain rfl := h
    rfl
  | some e => exact ⟨timer, h, rfl⟩

omit [Keypad κ] in
theorem ReadsAs.reading_eq {period now : Nat} {reading : UInt8} {last : Option (Execution κ)}
    (h : ReadsAs period now reading last) (vx : UInt8) (start : Nat)
    (hlast : last.map (fun e => (e.vx, e.machine.now)) = some (vx, start)) :
    (({ period } : Timer).set? vx.toNat start).map (·.get now) = some reading := by
  obtain ⟨e, rfl, hvalues⟩ := Option.map_eq_some_iff.mp hlast
  obtain ⟨timer, hset, rfl⟩ := h
  cases hvalues
  rw [hset]
  rfl

/-- **Timers.** At any moment the delay timer reads as a new timer would that was set once, to the VX
and at the clock reading of the newest FX15, and the sound timer so with FX18. All else that was asked
of the machine has no part in it. -/
theorem timers_read_as_last_set (settings : Settings) (keypad : κ) (entropy : UInt64)
    (fresh : Machine κ) (hnew : new? settings keypad entropy = some fresh)
    (requests : List (Request κ)) (m : Machine κ) (hm : m = requests.foldl obey fresh) :
    ∃ period, settings.timerPeriod? = some period ∧
      ReadsAs period m.now m.delayNow (newest 0x15 (fresh.history requests)) ∧
      ReadsAs period m.now m.soundNow (newest 0x18 (fresh.history requests)) := by
  obtain ⟨period, hperiod, hfresh⟩ := Option.map_eq_some_iff.mp hnew
  have hdelay : Countdown.delay.timer fresh = { period } := by rw [← hfresh]; rfl
  have hsound : Countdown.sound.timer fresh = { period } := by rw [← hfresh]; rfl
  refine ⟨period, hperiod, ?_, ?_⟩
  · rw [hm]
    exact (setBy_newest hdelay requests).readsAs _
  · rw [hm]
    exact (setBy_newest hsound requests).readsAs _

/-- The delay timer is set to 5 at the start and the sound timer to 9 after three seconds. Then a word
fails and the clock goes back to two seconds. -/
def twoTimers : List (Request Script) :=
  [.execute 0x6005, .execute 0xF015, .host ⟨3 * Duration.second, {}⟩, .execute 0x6009,
    .execute 0xF018, .execute 0x0000, .host ⟨2 * Duration.second, {}⟩]

theorem timers_read_as_last_set_two :
    (twoTimers.foldl obey (switchedOn 0)).delayNow = 3 ∧
      (twoTimers.foldl obey (switchedOn 0)).soundNow = 10 := by
  obtain ⟨period, hperiod, hdelay, hsound⟩ := timers_read_as_last_set { seed := some 0 } {} 0
    (switchedOn 0) (new?_switchedOn 0) twoTimers _ rfl
  obtain rfl := Option.some.inj ((timerPeriod?_standard 0).symm.trans hperiod)
  have hfive := hdelay.reading_eq 5 0 (by decide +kernel)
  have hnine := hsound.reading_eq 9 (3 * Duration.second) (by decide +kernel)
  exact ⟨Option.some.inj (hfive.symm.trans (by decide +kernel)),
    Option.some.inj (hnine.symm.trans (by decide +kernel))⟩

end Machine

end Chip8
