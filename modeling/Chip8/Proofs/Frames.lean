import Mathlib.Logic.Function.Iterate
import Chip8.Pacing
import Chip8.Proofs.Run

/-!
# Frames

Updates drive a machine by one run of steps: each begins where the one before it stopped. How seconds
are added and compared has no part in this, so the loop of a pacer is told here in any arithmetic.
-/

namespace Chip8

open Number

variable {σ β : Type}

/-- What a pacer does with seconds. -/
structure Reckoning (β : Type) where
  zero : β
  /-- The length that a frame counts as. -/
  cap : β → β
  add : β → β → β
  sub : β → β → β
  ge : β → β → Bool

def Reckoning.single : Reckoning Single where
  zero := .zero
  cap dt := dt.min longestFrame
  add := Single.add
  sub := Single.sub
  ge := Single.ge

/-! ## The loop -/

/-- The loop makes steps with these outcomes and ends, with a budget, a state and an answer. -/
inductive Spends (a : Reckoning β) (step : σ → σ × Outcome) (timeStep : β) :
    β → σ → List Outcome → β → σ → Outcome → Prop
  | stop {b s} (hb : a.ge b timeStep = false) : Spends a step timeStep b s [] b s .proceed
  | proceed {b s outcomes b' s' answer} (hb : a.ge b timeStep = true)
      (hs : (step s).2 = .proceed)
      (h : Spends a step timeStep (a.sub b timeStep) (step s).1 outcomes b' s' answer) :
      Spends a step timeStep b s (.proceed :: outcomes) b' s' answer
  | wait {b s} (hb : a.ge b timeStep = true) (hs : (step s).2 = .wait) :
      Spends a step timeStep b s [.wait] a.zero (step s).1 .wait
  | halt {b s} (hb : a.ge b timeStep = true) (hs : ¬ (step s).2.Succeeds) :
      Spends a step timeStep b s [(step s).2] (a.sub b timeStep) (step s).1 (step s).2

theorem spend_succ (step : σ → σ × Outcome) (timeStep : Single) (fuel : Nat) (b : Single) (s : σ) :
    Pacer.spend step timeStep (fuel + 1) b s =
      if Reckoning.single.ge b timeStep then
        match (step s).2 with
        | .proceed => Pacer.spend step timeStep fuel (Reckoning.single.sub b timeStep) (step s).1
        | .wait => some (Reckoning.single.zero, (step s).1, .wait)
        | outcome => some (Reckoning.single.sub b timeStep, (step s).1, outcome)
      else some (b, s, .proceed) := by
  rw [Pacer.spend]
  rcases step s with ⟨_, _ | _ | _ | _⟩ <;> rfl

theorem spends_of_spend (step : σ → σ × Outcome) (timeStep : Single) (fuel : Nat)
    (b b' : Single) (s s' : σ) (answer : Outcome)
    (h : Pacer.spend step timeStep fuel b s = some (b', s', answer)) :
    ∃ outcomes, Spends .single step timeStep b s outcomes b' s' answer := by
  induction fuel generalizing b s with
  | zero => cases h
  | succ fuel ih =>
    rw [spend_succ] at h
    split at h
    · rename_i hb
      cases hs : (step s).2 with
      | proceed =>
        rw [hs] at h
        obtain ⟨outcomes, hrest⟩ := ih _ _ h
        exact ⟨_, .proceed hb hs hrest⟩
      | wait =>
        rw [hs] at h
        cases h
        exact ⟨_, .wait hb hs⟩
      | failed _ | overflow =>
        rw [hs] at h
        cases h
        have hhalt : ¬ (step s).2.Succeeds := by simp [hs, Outcome.Succeeds]
        rw [← hs]
        exact ⟨_, .halt hb hhalt⟩
    · rename_i hb
      cases h
      rw [Bool.not_eq_true] at hb
      exact ⟨[], .stop hb⟩

theorem spend_of_spends (step : σ → σ × Outcome) (timeStep b b' : Single) (s s' : σ)
    (outcomes : List Outcome) (answer : Outcome)
    (h : Spends .single step timeStep b s outcomes b' s' answer) :
    ∃ fuel, Pacer.spend step timeStep fuel b s = some (b', s', answer) := by
  induction h with
  | stop hb =>
    refine ⟨1, ?_⟩
    rw [spend_succ, hb]
    rfl
  | proceed hb hs _ ih =>
    obtain ⟨fuel, hfuel⟩ := ih
    refine ⟨fuel + 1, ?_⟩
    rw [spend_succ, if_pos hb, hs]
    exact hfuel
  | wait hb hs =>
    refine ⟨1, ?_⟩
    rw [spend_succ, if_pos hb, hs]
  | @halt b s hb hs =>
    refine ⟨1, ?_⟩
    rw [spend_succ, if_pos hb]
    cases ho : (step s).2 with
    | proceed => exact absurd (.inl ho) hs
    | wait => exact absurd (.inr ho) hs
    | failed _ | overflow => rfl

/-! ## One update -/

/-- Exactly `n` steps, whatever they come to, with their outcomes in order. -/
def stepTimes (step : σ → σ × Outcome) : Nat → σ → σ × List Outcome
  | 0, s => (s, [])
  | n + 1, s =>
    let rest := stepTimes step n (step s).1
    (rest.1, (step s).2 :: rest.2)

theorem stepTimes_add (step : σ → σ × Outcome) (n k : Nat) (s : σ) :
    stepTimes step (n + k) s =
      ((stepTimes step k (stepTimes step n s).1).1,
        (stepTimes step n s).2 ++ (stepTimes step k (stepTimes step n s).1).2) := by
  induction n generalizing s with
  | zero => rw [Nat.zero_add]; rfl
  | succ n ih =>
    rw [Nat.add_right_comm, stepTimes, ih]
    rfl

/-- What the loop makes of a budget `b` and a state `s`: steps with these outcomes, and an answer that
is told by the last of them. -/
structure Accounts (a : Reckoning β) (step : σ → σ × Outcome) (timeStep b : β) (s : σ)
    (outcomes : List Outcome) (b' : β) (s' : σ) (answer : Outcome) : Prop where
  steps : stepTimes step outcomes.length s = (s', outcomes)
  early : ∀ outcome ∈ outcomes.dropLast, outcome = .proceed
  failed : ∀ fault, answer = .failed fault ↔ outcomes.getLast? = some (.failed fault)
  wait : answer = .wait ↔ outcomes.getLast? = some .wait
  proceed : answer = .proceed ↔
    (∀ outcome ∈ outcomes, outcome = .proceed) ∧ a.ge b' timeStep = false
  idle : outcomes.length = 0 ↔ a.ge b timeStep = false
  /-- The loop goes on as long as what is left covers another step. -/
  covered : ∀ k < outcomes.length, a.ge ((a.sub · timeStep)^[k] b) timeStep = true
  debited : (∀ outcome ∈ outcomes, outcome = .proceed) →
    b' = (a.sub · timeStep)^[outcomes.length] b
  forfeited : answer = .wait → b' = a.zero

theorem Spends.accounts {a : Reckoning β} {step : σ → σ × Outcome} {timeStep b b' : β} {s s' : σ}
    {outcomes : List Outcome} {answer : Outcome}
    (h : Spends a step timeStep b s outcomes b' s' answer) :
    Accounts a step timeStep b s outcomes b' s' answer := by
  induction h with
  | stop hb =>
    constructor <;> simp [stepTimes, hb]
  | @proceed _ _ outcomes _ _ _ hb hs _ ih =>
    constructor
    case steps => simp [stepTimes, ih.steps, hs]
    case early =>
      intro outcome ho
      cases outcomes with
      | nil => simp at ho
      | cons o os =>
        rw [List.dropLast_cons_cons, List.mem_cons] at ho
        rcases ho with rfl | ho
        · rfl
        · exact ih.early outcome ho
    case failed =>
      intro fault
      rw [ih.failed, List.getLast?_cons]
      cases outcomes.getLast? <;> simp
    case wait =>
      rw [ih.wait, List.getLast?_cons]
      cases outcomes.getLast? <;> simp
    case proceed => simp [ih.proceed]
    case idle => simp [hb]
    case covered =>
      intro k hk
      cases k with
      | zero => exact hb
      | succ k => exact ih.covered k (by simpa using hk)
    case debited =>
      intro hall
      rw [List.forall_mem_cons] at hall
      exact ih.debited hall.2
    case forfeited => exact ih.forfeited
  | wait hb hs =>
    constructor <;> simp [stepTimes, hb, hs]
  | halt hb hs =>
    have hproceed : (step _).2 ≠ .proceed := fun h => hs (.inl h)
    have hwait : (step _).2 ≠ .wait := fun h => hs (.inr h)
    constructor <;> simp [stepTimes, hb, hproceed, hwait]

theorem update_returns_iff (step : σ → σ × Outcome) (p p' : Pacer) (dt : Single) (s s' : σ)
    (answer : Outcome) :
    (∃ fuel, p.update step fuel dt s = some (p', s', answer)) ↔
      p'.timeStep = p.timeStep ∧ ∃ outcomes, Spends .single step p.timeStep
        (Reckoning.single.add p.budget (Reckoning.single.cap dt)) s outcomes p'.budget s' answer := by
  constructor
  · rintro ⟨fuel, h⟩
    obtain ⟨⟨b, _, _⟩, hspend, hresult⟩ := Option.map_eq_some_iff.mp h
    cases hresult
    exact ⟨rfl, spends_of_spend step _ fuel _ _ _ _ _ hspend⟩
  · rintro ⟨htime, outcomes, h⟩
    obtain ⟨fuel, hspend⟩ := spend_of_spends step _ _ _ _ _ _ _ h
    refine ⟨fuel, Option.map_eq_some_iff.mpr ⟨_, hspend, ?_⟩⟩
    rw [← htime]

/-! ## Updates one after the other -/

/-- Updates that return, each with the seconds it was given and its answer. -/
inductive Updates (a : Reckoning β) (step : σ → σ × Outcome) (timeStep : β) :
    β → σ → List (β × Outcome) → β → σ → Prop
  | nil {b s} : Updates a step timeStep b s [] b s
  | cons {b s dt outcomes b₁ s₁ answer frames b' s'}
      (h : Spends a step timeStep (a.add b (a.cap dt)) s outcomes b₁ s₁ answer)
      (later : Updates a step timeStep b₁ s₁ frames b' s') :
      Updates a step timeStep b s ((dt, answer) :: frames) b' s'

/-- The same updates with the outcomes of the steps that each of them made. -/
inductive Told (a : Reckoning β) (step : σ → σ × Outcome) (timeStep : β) :
    β → σ → List (β × Outcome) → List (List Outcome) → β → σ → Prop
  | nil {b s} : Told a step timeStep b s [] [] b s
  | cons {b s dt outcomes b₁ s₁ answer frames traces b' s'}
      (h : Accounts a step timeStep (a.add b (a.cap dt)) s outcomes b₁ s₁ answer)
      (later : Told a step timeStep b₁ s₁ frames traces b' s') :
      Told a step timeStep b s ((dt, answer) :: frames) (outcomes :: traces) b' s'

theorem Updates.told {a : Reckoning β} {step : σ → σ × Outcome} {timeStep b b' : β} {s s' : σ}
    {frames : List (β × Outcome)} (h : Updates a step timeStep b s frames b' s') :
    ∃ traces, Told a step timeStep b s frames traces b' s' := by
  induction h with
  | nil => exact ⟨[], .nil⟩
  | cons h _ ih =>
    obtain ⟨traces, hlater⟩ := ih
    exact ⟨_, .cons h.accounts hlater⟩

theorem Told.steps {a : Reckoning β} {step : σ → σ × Outcome} {timeStep b b' : β} {s s' : σ}
    {frames : List (β × Outcome)} {traces : List (List Outcome)}
    (h : Told a step timeStep b s frames traces b' s') :
    stepTimes step traces.flatten.length s = (s', traces.flatten) := by
  induction h with
  | nil => rfl
  | cons h _ ih => rw [List.flatten_cons, List.length_append, stepTimes_add, h.steps, ih]

/-- **One run of steps.** An update of a pacer is the loop above with single-precision seconds. In any
arithmetic of seconds, updates that return make the steps of one run, each those that `Accounts` tells,
and together all of them in order. -/
theorem updates_make_one_run (step : σ → σ × Outcome) :
    (∀ (p p' : Pacer) (dt : Single) (s s' : σ) (answer : Outcome),
      (∃ fuel, p.update step fuel dt s = some (p', s', answer)) ↔
        p'.timeStep = p.timeStep ∧ ∃ outcomes, Spends .single step p.timeStep
          (Reckoning.single.add p.budget (Reckoning.single.cap dt)) s outcomes p'.budget s' answer) ∧
    ∀ (β : Type) (a : Reckoning β) (timeStep b b' : β) (s s' : σ) (frames : List (β × Outcome)),
      Updates a step timeStep b s frames b' s' →
      ∃ traces, Told a step timeStep b s frames traces b' s' ∧
        stepTimes step traces.flatten.length s = (s', traces.flatten) := by
  constructor
  · exact update_returns_iff step
  · intro β a timeStep b b' s s' frames h
    obtain ⟨traces, htold⟩ := h.told
    exact ⟨traces, htold, htold.steps⟩

/-- Two frames of one time step each, the first with an addition and the second with 00E0. -/
theorem updates_make_one_run_two_frames :
    ∃ traces, Told .single Machine.step longestFrame .zero
        (Machine.bare [0x70, 0x01, 0x00, 0xE0])
        [(longestFrame, .proceed), (longestFrame, .wait)] traces .zero
        (Machine.bare [0x70, 0x01, 0x00, 0xE0]).step.1.step.1 ∧
      stepTimes Machine.step traces.flatten.length (Machine.bare [0x70, 0x01, 0x00, 0xE0]) =
        ((Machine.bare [0x70, 0x01, 0x00, 0xE0]).step.1.step.1, traces.flatten) := by
  apply (updates_make_one_run Machine.step).2
  apply Updates.cons (.proceed (by decide +kernel) (by decide +kernel) (.stop (by decide +kernel)))
  exact .cons (.wait (by decide +kernel) (by decide +kernel)) .nil

end Chip8
