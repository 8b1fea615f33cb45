import Mathlib.Data.List.Infix
import Chip8.Proofs.Effects

/-!
# Calls and returns

Only a call and a return touch the stack. So the stack after a run can be told from the calls and
returns in it, and a subroutine that comes back comes back to its caller.
-/

namespace Chip8.Machine

variable {κ : Type}

/-! ## Calls and returns in a run -/

def isCall (m : Machine κ) : Bool := m.fetch.toOption.any (·.family == 2)

def isReturn (m : Machine κ) : Bool := m.fetch.toOption.any (· == 0x00EE)

def calls (vs : List (Machine κ)) : Nat := vs.countP isCall

def returns (vs : List (Machine κ)) : Nat := vs.countP isReturn

/-- Whether a call made before these steps is returned from in them: at some point they have made
more returns than calls of their own. -/
def closed (vs : List (Machine κ)) : Bool := vs.inits.any fun early => calls early < returns early

/-- The addresses of the calls that have not returned, in call order. -/
def unreturned : List (Machine κ) → List UInt16
  | [] => []
  | v :: vs => if v.isCall && !closed vs then v.pc :: unreturned vs else unreturned vs

/-- The lowest depth that the stack has in a run. -/
def lowest [Keypad κ] (m : Machine κ) : List (Host κ) → Nat
  | [] => m.stack.size
  | h :: hs => min m.stack.size ((m.hosted h).step.1.lowest hs)

theorem isCall_iff (m : Machine κ) (w : Word) (h : m.Reads w) :
    m.isCall = true ↔ Operation.call.Covers w := by
  rw [isCall, (m.fetch_eq_ok_iff w).mpr h]
  simp [Except.toOption, Operation.Covers, Operation.shape, Shape.Holds]

theorem isReturn_iff (m : Machine κ) (w : Word) (h : m.Reads w) :
    m.isReturn = true ↔ Operation.ret.Covers w := by
  rw [isReturn, (m.fetch_eq_ok_iff w).mpr h]
  simp [Except.toOption, Operation.Covers, Operation.shape, Shape.Holds]

/-! ## One step -/

variable [Keypad κ]

/-- What a step does to the stack. -/
inductive StackStep (m m' : Machine κ) : Prop
  | call (hc : m.isCall = true) (hr : m.isReturn = false) (h : m'.stack = m.stack.push m.pc)
  | ret (address : UInt16) (hc : m.isCall = false) (hr : m.isReturn = true)
      (h : m.stack = m'.stack.push address) (hpc : m'.pc = address + 2)
  | other (hc : m.isCall = false) (hr : m.isReturn = false) (h : m'.stack = m.stack)

theorem step_stack (m : Machine κ) (h : m.step.2.Succeeds) : StackStep m m.step.1 := by
  obtain ⟨w, op, hw, hc, hstep⟩ := m.step_succeeds h
  have hop := fun op' => w.covers_iff_eq op op' hc
  have hcall : m.isCall = decide (op = .call) := by
    rw [Bool.eq_iff_iff, isCall_iff m w hw, hop, decide_eq_true_iff]
  have hret : m.isReturn = decide (op = .ret) := by
    rw [Bool.eq_iff_iff, isReturn_iff m w hw, hop, decide_eq_true_iff]
  by_cases h1 : op = .call
  · subst h1
    rw [hstep] at h ⊢
    exact .call (by simp [hcall]) (by simp [hret]) (m.perform_call w h)
  by_cases h2 : op = .ret
  · subst h2
    rw [hstep] at h ⊢
    obtain ⟨address, hstack, hpc⟩ := m.perform_ret w h
    exact .ret address (by simp [hcall]) (by simp [hret]) hstack hpc
  · rw [hstep]
    exact .other (by simp [hcall, h1]) (by simp [hret, h2]) (m.perform_stack w op h1 h2)

/-! ## Runs -/

theorem depth_run (m : Machine κ) (hosts : List (Host κ))
    (hok : ∀ v ∈ m.visits hosts, v.step.2.Succeeds) :
    (m.run hosts).stack.size + returns (m.visits hosts) =
      m.stack.size + calls (m.visits hosts) := by
  induction hosts generalizing m with
  | nil => rfl
  | cons host hosts ih =>
    simp only [visits, List.forall_mem_cons] at hok
    have hrest := ih _ hok.2
    simp only [visits, run, calls, returns, List.countP_cons] at hrest ⊢
    rcases (m.hosted host).step_stack hok.1 with ⟨hc, hr, h⟩ | ⟨address, hc, hr, h, _⟩ | ⟨hc, hr, h⟩
    all_goals
      have hsize := congrArg Array.size h
      simp [hc, hr] at hsize ⊢
      omega

theorem lowest_le (m : Machine κ) (hosts : List (Host κ)) : m.lowest hosts ≤ m.stack.size := by
  cases hosts with
  | nil => exact Nat.le_refl _
  | cons host hosts => exact Nat.min_le_left _ _

theorem lowest_lt_iff (m : Machine κ) (hosts : List (Host κ)) (n : Nat) :
    m.lowest hosts < n ↔ ∃ hs, hs <+: hosts ∧ (m.run hs).stack.size < n := by
  induction hosts generalizing m with
  | nil => simp [lowest, run]
  | cons host hosts ih =>
    have hmin : m.lowest (host :: hosts) < n ↔
        m.stack.size < n ∨ (m.hosted host).step.1.lowest hosts < n := by
      rw [lowest]
      omega
    rw [hmin, ih]
    constructor
    · rintro (h | ⟨hs, hpre, h⟩)
      · exact ⟨[], List.nil_prefix, h⟩
      · exact ⟨host :: hs, List.cons_prefix_cons.mpr ⟨rfl, hpre⟩, h⟩
    · rintro ⟨hs, hpre, h⟩
      rcases List.prefix_cons_iff.mp hpre with rfl | ⟨rest, rfl, hrest⟩
      · exact .inl h
      · exact .inr ⟨rest, hrest, h⟩

/-- A call is returned from exactly if the stack gets shorter than it was after the call. -/
theorem closed_iff (m : Machine κ) (hosts : List (Host κ))
    (hok : ∀ v ∈ m.visits hosts, v.step.2.Succeeds) :
    closed (m.visits hosts) = true ↔ m.lowest hosts < m.stack.size := by
  have hdepth : ∀ hs, hs <+: hosts →
      (calls (m.visits hs) < returns (m.visits hs) ↔ (m.run hs).stack.size < m.stack.size) := by
    intro hs hpre
    have := m.depth_run hs fun v hv => hok v (m.visits_subset hpre hv)
    omega
  simp only [closed, List.any_eq_true, List.mem_inits, decide_eq_true_eq, prefix_visits_iff,
    lowest_lt_iff]
  constructor
  · rintro ⟨_, ⟨hs, hpre, rfl⟩, h⟩
    exact ⟨hs, hpre, (hdepth hs hpre).mp h⟩
  · rintro ⟨hs, hpre, h⟩
    exact ⟨_, ⟨hs, hpre, rfl⟩, (hdepth hs hpre).mpr h⟩

theorem stack_run (m : Machine κ) (hosts : List (Host κ))
    (hok : ∀ v ∈ m.visits hosts, v.step.2.Succeeds) :
    (m.run hosts).stack.toList =
      m.stack.toList.take (m.lowest hosts) ++ unreturned (m.visits hosts) := by
  induction hosts generalizing m with
  | nil => simp [run, visits, lowest, unreturned]
  | cons host hosts ih =>
    simp only [visits, List.forall_mem_cons] at hok
    have hclosed := closed_iff _ hosts hok.2
    have hle := lowest_le (m.hosted host).step.1 hosts
    rw [run, visits, lowest, ih _ hok.2]
    rcases (m.hosted host).step_stack hok.1 with ⟨hc, _, h⟩ | ⟨address, hc, _, h, _⟩ | ⟨hc, _, h⟩
    · simp only [hosted_stack, hosted_pc] at h
      by_cases hlow : (m.hosted host).step.1.lowest hosts < (m.hosted host).step.1.stack.size
      · -- The call has returned: its own entry is gone.
        rw [unreturned, hclosed.mpr hlow]
        rw [h, Array.size_push] at hlow
        have hmin : min m.stack.size ((m.hosted host).step.1.lowest hosts) =
            (m.hosted host).step.1.lowest hosts := by omega
        rw [hmin, h, Array.toList_push, List.take_append_of_le_length (by simp; omega)]
        simp
      · -- The call is still open: its entry follows all that was there before.
        have hopen : closed ((m.hosted host).step.1.visits hosts) = false := by
          rw [Bool.eq_false_iff, Ne, hclosed]
          exact hlow
        rw [unreturned, hopen, hc]
        rw [h, Array.size_push] at hlow hle
        have hmin : min m.stack.size ((m.hosted host).step.1.lowest hosts) = m.stack.size := by
          omega
        rw [hmin, h, List.take_of_length_le (by simp; omega), List.take_of_length_le (by simp)]
        simp
    · simp only [hosted_stack] at h
      have hmin : min m.stack.size ((m.hosted host).step.1.lowest hosts) =
          (m.hosted host).step.1.lowest hosts := by
        rw [h, Array.size_push]
        omega
      rw [hmin, h, Array.toList_push, List.take_append_of_le_length (by simpa using hle)]
      simp [unreturned, hc]
    · simp only [hosted_stack] at h
      rw [h] at hle ⊢
      rw [Nat.min_eq_right hle]
      simp [unreturned, hc]

/-- A subroutine whose entry `address` lies on `base` comes back to `address` when the stack is
down to `base` for the first time. -/
theorem run_returns (m : Machine κ) (hosts : List (Host κ)) (base : Array UInt16)
    (address : UInt16) (hok : ∀ v ∈ m.visits hosts, v.step.2.Succeeds)
    (hbase : base.toList ++ [address] <+: m.stack.toList)
    (habove : ∀ v ∈ m.visits hosts, base.size < v.stack.size)
    (hend : (m.run hosts).stack.size = base.size) :
    (m.run hosts).stack = base ∧ (m.run hosts).pc = address + 2 := by
  induction hosts generalizing m with
  | nil =>
    have := hbase.length_le
    simp [run] at this hend
    omega
  | cons host hosts ih =>
    simp only [visits, List.forall_mem_cons, hosted_stack] at hok habove
    rw [run] at hend ⊢
    rcases (m.hosted host).step_stack hok.1 with ⟨_, _, h⟩ | ⟨top, _, _, h, hpc⟩ | ⟨_, _, h⟩
    · apply ih _ hok.2 _ habove.2 hend
      rw [h, Array.toList_push]
      exact hbase.trans (List.prefix_append _ _)
    · rw [hosted_stack] at h
      rw [h, Array.toList_push] at hbase
      rcases List.prefix_concat_iff.mp hbase with heq | hpre
      · -- This step takes off the subroutine's own entry, and no step follows it.
        obtain ⟨hstack, htop⟩ := List.append_inj' heq rfl
        cases hosts with
        | nil =>
          cases htop
          exact ⟨Array.toList_inj.mp hstack.symm, hpc⟩
        | cons host' hosts =>
          have hlen := congrArg List.length hstack
          simp only [visits, List.forall_mem_cons, hosted_stack] at habove
          simp at hlen
          omega
      · exact ih _ hok.2 hpre habove.2 hend
    · apply ih _ hok.2 _ habove.2 hend
      rw [h]
      exact hbase

/-- **The call stack.** At each point of a run the depth is the first depth plus the calls minus the
returns so far, and the stack is what has not been popped of the first one, then the calls that have
not returned. A subroutine that comes back finds the stack as it was at its call, right after it. -/
theorem call_stack_of_run (m : Machine κ) (hosts : List (Host κ))
    (hok : ∀ v ∈ m.visits hosts, v.step.2.Succeeds) :
    (∀ hs, hs <+: hosts →
      (m.run hs).stack.size + returns (m.visits hs) = m.stack.size + calls (m.visits hs) ∧
      (m.run hs).stack.toList =
        m.stack.toList.take (m.lowest hs) ++ unreturned (m.visits hs)) ∧
    ∀ before host after caller, before ++ host :: after <+: hosts →
      caller = (m.run before).hosted host → caller.isCall = true →
      (∀ v ∈ caller.step.1.visits after, caller.stack.size < v.stack.size) →
      (caller.step.1.run after).stack.size = caller.stack.size →
      (caller.step.1.run after).stack = caller.stack ∧
        (caller.step.1.run after).pc = caller.pc + 2 := by
  have hsteps : ∀ hs, hs <+: hosts → ∀ v ∈ m.visits hs, v.step.2.Succeeds := by
    intro hs hpre v hv
    exact hok v (m.visits_subset hpre hv)
  constructor
  · intro hs hpre
    exact ⟨m.depth_run hs (hsteps hs hpre), m.stack_run hs (hsteps hs hpre)⟩
  · rintro before host after caller hpre rfl hcall habove hend
    have hok' := hsteps _ hpre
    rw [visits_append, visits, List.forall_mem_append, List.forall_mem_cons] at hok'
    obtain ⟨_, hcaller, hafter⟩ := hok'
    apply run_returns _ after _ _ hafter _ habove hend
    rcases step_stack _ hcaller with ⟨_, _, h⟩ | ⟨_, hc, _, _, _⟩ | ⟨hc, _, _⟩
    · rw [h, Array.toList_push]
    · simp [hc] at hcall
    · simp [hc] at hcall

/-- A call at 0 to a subroutine at 4 that returns at once. -/
theorem call_stack_of_run_back :
    ((bare [0x20, 0x04, 0, 0, 0x00, 0xEE]).run [⟨0, {}⟩, ⟨0, {}⟩]).stack = #[] ∧
      ((bare [0x20, 0x04, 0, 0, 0x00, 0xEE]).run [⟨0, {}⟩, ⟨0, {}⟩]).pc = 2 := by
  have hok : ∀ v ∈ (bare [0x20, 0x04, 0, 0, 0x00, 0xEE]).visits [⟨0, {}⟩, ⟨0, {}⟩],
      v.step.2.Succeeds := by
    simp only [visits, List.forall_mem_cons, Outcome.Succeeds]
    exact ⟨by decide +kernel, by decide +kernel, by simp⟩
  obtain ⟨hstack, hpc⟩ := (call_stack_of_run _ _ hok).2 [] ⟨0, {}⟩ [⟨0, {}⟩] _
    (List.prefix_refl _) rfl (by decide +kernel)
    (by simp only [visits, List.forall_mem_cons]; exact ⟨by decide +kernel, by simp⟩)
    (by decide +kernel)
  rw [hosted_stack, run] at hstack
  rw [hosted_pc, run] at hpc
  rw [run]
  exact ⟨hstack, hpc⟩

end Chip8.Machine
