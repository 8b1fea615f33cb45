import Chip8.Proofs.Flow
import Chip8.Proofs.Frames

/-!
# Waiting for a key

FX0A stays where it is until a key is down. A machine that waits asks its keypad and does nothing
else, once a step and, since every answer ends the frame, once an update.
-/

namespace Chip8

open Number

variable {κ : Type} [Keypad κ]

/-! ## Keypads -/

/-- The keypad after `n` questions. -/
def Keypad.asked (n : Nat) (keypad : κ) : κ := (fun keypad => (read keypad).2)^[n] keypad

theorem Keypad.asked_succ (n : Nat) (keypad : κ) :
    asked (n + 1) keypad = (read (asked n keypad)).2 :=
  Function.iterate_succ_apply' _ n keypad

/-- No key is down for `k` questions, and then `q` is. -/
def Keypad.Delays (keypad : κ) (k : Nat) (q : Nibble) : Prop :=
  (∀ i < k, (read (asked i keypad)).1 = none) ∧ (read (asked k keypad)).1 = some q

namespace Machine

/-- The machine after `n` questions to its keypad, at some clock reading. -/
def polled (m : Machine κ) (n now : Nat) : Machine κ :=
  { m with now, keypad := Keypad.asked n m.keypad }

/-! ## Steps -/

section

variable {m : Machine κ} {w : Word} (hw : m.Reads w) (hkey : w.family = 0xF ∧ w.nn = 0x0A)

include hw hkey

theorem step_polled (n now : Nat) : (m.polled n now).step = (m.polled n now).awaitKey w.x := by
  have hreads : (m.polled n now).Reads w := hw
  rw [step_of_reads _ w hreads, execute_of_covers _ w .awaitKey hkey]
  rfl

theorem step_polled_none (n now : Nat)
    (hnone : (Keypad.read (Keypad.asked n m.keypad)).1 = none) :
    (m.polled n now).step = (m.polled (n + 1) now, .wait) := by
  rw [step_polled hw hkey]
  unfold awaitKey polled
  split
  · simp_all
  · simp_all [Keypad.asked_succ]

theorem step_polled_some (n now : Nat) (q : Nibble)
    (hsome : (Keypad.read (Keypad.asked n m.keypad)).1 = some q) :
    (m.polled n now).step = ({ m.polled (n + 1) now with
      pc := m.pc + 2, registers := m.registers.set w.x q.toByte }, .proceed) := by
  rw [step_polled hw hkey]
  unfold awaitKey polled
  split
  · simp_all [Keypad.asked_succ, assign, advance]
  · simp_all

/-- The clock may show anything meanwhile. -/
theorem before_polled (clock : Nat → Nat) (n : Nat)
    (hnone : ∀ i < n, (Keypad.read (Keypad.asked i m.keypad)).1 = none) :
    m.before (fun i => ⟨clock i, id⟩) n = m.polled n (clock n) := by
  induction n with
  | zero => rfl
  | succ n ih =>
    have hstep := step_polled_none hw hkey n (clock n) (hnone n (by omega))
    rw [before, ih fun i hi => hnone i (by omega), hstep]
    rfl

end

end Machine

/-! ## Updates -/

/-- One update: when it was made, the seconds it was given, and its answer. -/
structure Frame where
  now : Nat
  dt : Single
  answer : Outcome

namespace Machine

/-- Updates one after the other lead from one pacer and machine to another. -/
inductive Paced (p : Pacer) (m : Machine κ) : List Frame → Pacer → Machine κ → Prop
  | start : Paced p m [] p m
  | update {frames : List Frame} {p₁ p₂ : Pacer} {m₁ m₂ : Machine κ} {fuel : Nat} {frame : Frame}
      (earlier : Paced p m frames p₁ m₁)
      (h : p₁.update step fuel frame.dt { m₁ with now := frame.now } =
        some (p₂, m₂, frame.answer)) :
      Paced p m (frames ++ [frame]) p₂ m₂

/-- How many of the updates were ended by an instruction that waits. -/
def waits (frames : List Frame) : Nat := frames.countP (·.answer = .wait)

section

variable {m : Machine κ} {w : Word} (hw : m.Reads w) (hkey : w.family = 0xF ∧ w.nn = 0x0A)

include hw hkey

theorem update_polled (p : Pacer) (n now fuel : Nat) (dt : Single)
    (hnone : (Keypad.read (Keypad.asked n m.keypad)).1 = none) :
    p.update step (fuel + 1) dt (m.polled n now) =
      some (if (p.budget.add (dt.min longestFrame)).ge p.timeStep then
          ({ p with budget := .zero }, m.polled (n + 1) now, .wait)
        else ({ p with budget := p.budget.add (dt.min longestFrame) }, m.polled n now,
          .proceed)) := by
  unfold Pacer.update Pacer.spend
  rw [step_polled_none hw hkey n now hnone]
  split_ifs <;> rfl

theorem paced_polled {k : Nat} (hnone : ∀ i < k, (Keypad.read (Keypad.asked i m.keypad)).1 = none)
    {p p' : Pacer} {m' : Machine κ} {frames : List Frame} (h : Paced p m frames p' m')
    (hwaits : waits frames < k) : ∃ now, m' = m.polled (waits frames) now := by
  induction h with
  | start => exact ⟨m.now, rfl⟩
  | @update frames p₁ p₂ m₁ m₂ fuel frame earlier h ih =>
    have hcount : waits (frames ++ [frame]) =
        waits frames + if frame.answer = .wait then 1 else 0 := by
      simp [waits, List.countP_append, List.countP_cons]
    rw [hcount] at hwaits ⊢
    obtain ⟨now, rfl⟩ := ih (by omega)
    refine ⟨frame.now, ?_⟩
    cases fuel with
    | zero => cases h
    | succ fuel =>
      -- The wait is not over, so this update asks once or not at all.
      have hupdate := update_polled hw hkey p₁ (waits frames) frame.now fuel frame.dt
        (hnone _ (by omega))
      have hresult := h.symm.trans hupdate
      split_ifs at hresult
      · obtain ⟨-, rfl, hanswer⟩ := by simpa using hresult
        simp [hanswer]
      · obtain ⟨-, rfl, hanswer⟩ := by simpa using hresult
        simp [hanswer]

end

/-- **Waiting for a key.** A machine at FX0A whose keypad answers no key `k` times and then `q` waits
in each of the next `k` steps and changes nothing but the keypad. The step after them stores `q` and
moves on. An update while it waits asks the keypad once and leaves no budget, unless the budget does
not cover a step. -/
theorem waits_for_key (m : Machine κ) (w : Word) (hw : m.Reads w)
    (hkey : w.family = 0xF ∧ w.nn = 0x0A) (k : Nat) (q : Nibble)
    (hkeys : Keypad.Delays m.keypad k q) :
    (∀ clock : Nat → Nat,
      (∀ i < k, m.before (fun i => ⟨clock i, id⟩) i = m.polled i (clock i) ∧
        (m.before (fun i => ⟨clock i, id⟩) i).step = (m.polled (i + 1) (clock i), .wait)) ∧
      m.before (fun i => ⟨clock i, id⟩) k = m.polled k (clock k) ∧
      (m.before (fun i => ⟨clock i, id⟩) k).step = ({ m.polled (k + 1) (clock k) with
        pc := m.pc + 2, registers := m.registers.set w.x q.toByte }, .proceed)) ∧
    ∀ (p p' : Pacer) (m' : Machine κ) (frames : List Frame), Paced p m frames p' m' →
      waits frames < k → ∀ (now fuel : Nat) (dt : Single),
        p'.update step (fuel + 1) dt { m' with now } =
          some (if (p'.budget.add (dt.min longestFrame)).ge p'.timeStep then
              ({ p' with budget := .zero }, m.polled (waits frames + 1) now, .wait)
            else ({ p' with budget := p'.budget.add (dt.min longestFrame) },
              m.polled (waits frames) now, .proceed)) := by
  obtain ⟨hnone, hsome⟩ := hkeys
  constructor
  · intro clock
    have hbefore := before_polled hw hkey clock
    refine ⟨?_, ?_, ?_⟩
    · intro i hi
      rw [hbefore i fun j hj => hnone j (by omega)]
      exact ⟨rfl, step_polled_none hw hkey i _ (hnone i hi)⟩
    · exact hbefore k hnone
    · rw [hbefore k hnone]
      exact step_polled_some hw hkey k _ q hsome
  · intro p p' m' frames hpaced hwaits now fuel dt
    obtain ⟨now', rfl⟩ := paced_polled hw hkey hnone hpaced hwaits
    exact update_polled hw hkey p' (waits frames) now fuel dt (hnone _ hwaits)

/-- Two questions without an answer and then key 7, for V5. -/
theorem waits_for_key_seven :
    let m : Machine Script := { bare [0xF5, 0x0A] with keypad := { answers := [none, none, some 7] } }
    let run := m.before fun _ => ⟨0, id⟩
    (run 0).step.2 = .wait ∧ (run 1).step.2 = .wait ∧ (run 2).step.2 = .proceed ∧
      (run 2).step.1.registers.get 5 = 7 ∧ (run 2).step.1.keypad.reads = 3 ∧
      Pacer.update ⟨longestFrame, .zero⟩ step 9 longestFrame m =
        some (⟨longestFrame, .zero⟩, m.polled 1 0, .wait) := by
  intro m run
  obtain ⟨hsteps, hupdates⟩ := waits_for_key m 0xF50A ⟨by decide, by decide +kernel⟩
    ⟨by decide, by decide⟩ 2 7 ⟨by decide, by decide⟩
  obtain ⟨hwait, -, hkey⟩ := hsteps fun _ => 0
  have hlast : (run 2).step = _ := hkey
  refine ⟨?_, ?_, ?_, ?_, ?_, ?_⟩
  · exact congrArg (·.2) (hwait 0 (by decide)).2
  · exact congrArg (·.2) (hwait 1 (by decide)).2
  · rw [hlast]
  · rw [hlast]
    decide
  · rw [hlast]
    decide
  · refine (hupdates _ _ _ [] .start (by decide) 0 8 longestFrame).trans ?_
    rw [if_pos (by decide +kernel)]
    rfl

end Machine

end Chip8
