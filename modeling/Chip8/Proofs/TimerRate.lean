import Chip8.Proofs.Bounds
import Chip8.Proofs.Singles

/-!
# What a timer rate allows

The period of the timers is the inverse of their rate in whole nanoseconds. A rate can be so low
that its period cannot be counted or that 255 periods outlast the clock, and so high that a period
is no nanosecond at all.
-/

namespace Chip8

open Number

/-! ## Setting a timer and reading it -/

theorem Duration.periods_mul {p : Nat} (hp : 0 < p) (v : Nat) : periods (p * v) p = min 255 v := by
  have hno : nearTie (p * v) p = false := by
    have hlt : p / pow2 40 < p := Nat.div_lt_self hp (by decide)
    unfold nearTie
    rw [Nat.mul_mod_right, decide_eq_false_iff_not]
    omega
  have hquot : divNearest (p * v) p = v := by rw [Nat.mul_comm, divNearest_mul v hp]
  simp [periods, hno, hquot]

namespace Timer

theorem set?_eq_some_iff (t t' : Timer) (ticks now : Nat) :
    t.set? ticks now = some t' ↔ now + t.period * ticks < horizon ∧
      t' = { t with target := some (now + t.period * ticks) } := by
  simp [set?, eq_comm]

theorem period_set? {t t' : Timer} {ticks now : Nat} (h : t.set? ticks now = some t') :
    t'.period = t.period := by
  rw [set?_eq_some_iff] at h
  rw [h.2]

/-- A timer that was set now reads as it was set, unless its periods are empty. -/
theorem get_set? {t t' : Timer} {v : UInt8} {now : Nat} (h : t.set? v.toNat now = some t') :
    t'.get now = if 0 < t.period then v else 0 := by
  obtain ⟨-, rfl⟩ := (t.set?_eq_some_iff t' _ now).mp h
  unfold get
  dsimp only
  rcases Nat.eq_zero_or_pos t.period with hzero | hpos
  · simp [hzero]
  rw [if_pos hpos]
  split_ifs with hover hempty
  · have hnone : t.period * v.toNat = 0 := by omega
    have hv : v.toNat = 0 := (Nat.mul_eq_zero.mp hnone).resolve_left (by omega)
    exact UInt8.toNat_inj.mp hv.symm
  · omega
  · have hv := v.toNat_lt
    rw [Nat.add_sub_cancel_left, Duration.periods_mul hpos, Nat.min_eq_right (by omega),
      UInt8.ofNat_toNat]

end Timer

namespace Machine

variable {κ : Type} [Keypad κ]

/-- FX15 and then FX07 go through, and leave `b` in VX. -/
def Echoes (m : Machine κ) (x : Nibble) (b : UInt8) : Prop :=
  ∀ w w' : Word, Operation.setDelay.Covers w → Operation.readDelay.Covers w' → w.x = x → w'.x = x →
    (m.execute w).2 = .proceed ∧ ((m.execute w).1.execute w').2 = .proceed ∧
      ((m.execute w).1.execute w').1.registers.get x = b

theorem echoes (m : Machine κ) (x : Nibble)
    (h : m.now + m.delay.period * (m.registers.get x).toNat < Timer.horizon) :
    m.Echoes x (if 0 < m.delay.period then m.registers.get x else 0) := by
  rintro w w' hw hw' rfl hx
  obtain ⟨delay, hset⟩ : ∃ delay, m.delay.set? (m.registers.get w.x).toNat m.now = some delay :=
    ⟨_, if_pos h⟩
  have hfirst : m.execute w = ({ m with delay }.advance, .proceed) := by
    rw [execute_of_covers _ _ _ hw]
    simp [perform, hset]
  rw [hfirst, execute_of_covers _ _ _ hw']
  refine ⟨rfl, rfl, ?_⟩
  simp [perform, assign, advance, delayNow, Registers.get_set, hx, Timer.get_set? hset]

theorem execute_setDelay_overflow (m : Machine κ) (w : Word) (hw : Operation.setDelay.Covers w)
    (h : Timer.horizon ≤ m.now + m.delay.period * (m.registers.get w.x).toNat) :
    (m.execute w).2 = .overflow := by
  rw [execute_of_covers _ _ _ hw, perform_overflow_iff]
  exact h

omit [Keypad κ] in
theorem exists_timer_words (x : Nibble) :
    ∃ w w' : Word, Operation.setDelay.Covers w ∧ Operation.readDelay.Covers w' ∧
      w.x = x ∧ w'.x = x := by
  refine ⟨UInt16.ofNat (0xF015 + 256 * x), UInt16.ofNat (0xF007 + 256 * x), ?_⟩
  simp only [Operation.Covers, Operation.shape, Shape.Holds]
  revert x
  decide

theorem Echoes.unique {m : Machine κ} {x : Nibble} {b b' : UInt8} (h : m.Echoes x b)
    (h' : m.Echoes x b') : b = b' := by
  obtain ⟨w, w', hw, hw', hx, hx'⟩ := exists_timer_words x
  obtain ⟨-, -, hb⟩ := h w w' hw hw' hx hx'
  obtain ⟨-, -, hb'⟩ := h' w w' hw hw' hx hx'
  rw [← hb, hb']

/-! ## The period stays -/

theorem period_perform (m : Machine κ) (w : Word) (op : Operation) :
    (m.perform w op).1.delay.period = m.delay.period := by
  by_cases hop : op = .setDelay
  · subst hop
    unfold perform
    dsimp only
    split
    · rename_i hset
      exact Timer.period_set? hset
    · rfl
  · have hsame : Part.delay.Same m (m.perform w op).1 := by
      apply perform_same
      cases op <;> simp_all [Operation.parts]
    rw [hsame]

theorem period_execute (m : Machine κ) (w : Word) :
    (m.execute w).1.delay.period = m.delay.period := by
  rw [execute_eq]
  cases w.operation? with
  | none => rfl
  | some op => exact m.period_perform w op

theorem period_step (m : Machine κ) : m.step.1.delay.period = m.delay.period := by
  unfold step
  split
  · exact m.period_execute _
  · rfl

theorem period_obey (m : Machine κ) (request : Request κ) :
    (m.obey request).delay.period = m.delay.period := by
  cases request
  case step => exact m.period_step
  case execute w => exact m.period_execute w
  case push | pop | load =>
    exact attempt_state (·.delay.period = m.delay.period) m _ _ rfl fun _ _ => rfl
  all_goals rfl

theorem period_obey_all (m : Machine κ) (requests : List (Request κ)) :
    (requests.foldl obey m).delay.period = m.delay.period := by
  induction requests generalizing m with
  | nil => rfl
  | cons request requests ih => rw [List.foldl_cons, ih, period_obey]

end Machine

/-! ## The period of a rate -/

/-- The nanoseconds of the inverse of `H` units. -/
def periodOf (H : Nat) : Nat := divNearest (Single.inverseOf H * Duration.second) Single.one

theorem periodOf_anti {H H' : Nat} (hpos : 0 < H) (h : H ≤ H') : periodOf H' ≤ periodOf H := by
  have hone : 0 < Single.one := by decide
  apply divNearest_mono hone hone
  exact Nat.mul_le_mul_right _ (Nat.mul_le_mul_right _ (Single.inverseOf_anti hpos h))

section

variable {H : Nat} (hfits : Fits 24 H) (hpos : 0 < H)

include hfits hpos

/-- A period can be counted if the rate is more than 2⁻⁶⁴. -/
theorem inverseOf_lt_iff : Single.inverseOf H < pow2 64 * Single.one ↔ 2 ^ 85 < H := by
  rw [show 2 ^ 85 = 2 ^ 23 * 2 ^ 62 by decide]
  exact hfits.lt_iff_of_anti Single.inverseOf_anti hpos (by decide) (by decide)
    (by decide)

/-- And 255 of them end before the clock if the rate is more than 255 · 2⁻⁶³. -/
theorem periodOf_lt_iff : 255 * periodOf H < Timer.horizon ↔ 255 * 2 ^ 86 < H := by
  rw [show 255 * 2 ^ 86 = 255 * 2 ^ 16 * 2 ^ 70 by decide]
  exact hfits.lt_iff_of_anti (f := fun H => 255 * periodOf H)
    (fun hpos h => Nat.mul_le_mul_left 255 (periodOf_anti hpos h)) hpos (by decide)
    (by decide) (by decide)

/-- It is a nanosecond or more if the rate is below 2 · 10⁹. -/
theorem periodOf_pos_iff : 0 < periodOf H ↔ H < 15625000 * 2 ^ 156 := by
  have hbelow : periodOf H < 1 ↔ 15624999 * 2 ^ 156 < H :=
    hfits.lt_iff_of_anti periodOf_anti hpos (by decide) (by decide) (by decide)
  constructor
  · intro h
    by_contra hge
    have hzero := hbelow.mpr (by omega)
    omega
  · intro h
    by_contra hzero
    have hgap : (15624999 + 1) * 2 ^ 156 ≤ H :=
      hfits.succ_le (by decide) (hbelow.mp (by omega))
    omega

end

theorem nanoseconds?_counts {t : Single} {T : Nat} (h : t.Counts T) :
    nanoseconds? t = if T < pow2 64 * Single.one then
      some (divNearest (T * Duration.second) Single.one) else none := by
  obtain ⟨u, e, rfl, rfl⟩ := h
  simp only [nanoseconds?, pow2_eq_pow e, Bool.false_eq_true, false_and, if_false]

theorem timerPeriod?_eq {settings : Settings} {H : Nat} (hc : settings.timerRate.Counts H)
    (hfits : Fits 24 H) (hpos : 0 < H) :
    settings.timerPeriod? = if 2 ^ 85 < H then some (periodOf H) else none := by
  unfold Settings.timerPeriod?
  simp only [← inverseOf_lt_iff hfits hpos]
  rcases hc.inverse hpos with ⟨hinf, hlarge⟩ | hcount
  · have hlimit : pow2 64 * Single.one ≤ Single.limit := by decide
    rw [hinf, if_neg (by omega)]
    rfl
  · exact nanoseconds?_counts hcount

namespace Machine

variable {κ : Type}

theorem new?_isSome_iff {settings : Settings} {H : Nat} (hc : settings.timerRate.Counts H)
    (hfits : Fits 24 H) (hpos : 0 < H) (keypad : κ) (entropy : UInt64) :
    (new? settings keypad entropy).isSome ↔ 2 ^ 85 < H := by
  unfold new?
  rw [Option.isSome_map, timerPeriod?_eq hc hfits hpos]
  split_ifs with h
  · exact iff_of_true rfl h
  · exact iff_of_false Bool.false_ne_true h

theorem new?_eq_some {settings : Settings} {H : Nat} (hc : settings.timerRate.Counts H)
    (hfits : Fits 24 H) (hpos : 0 < H) {keypad : κ} {entropy : UInt64} {fresh : Machine κ}
    (h : new? settings keypad entropy = some fresh) :
    fresh.delay.period = periodOf H ∧ fresh.now = 0 := by
  obtain ⟨period, hperiod, rfl⟩ := Option.map_eq_some_iff.mp h
  rw [timerPeriod?_eq hc hfits hpos] at hperiod
  split_ifs at hperiod
  cases hperiod
  exact ⟨rfl, rfl⟩

variable [Keypad κ]

theorem echoes_all_iff (fresh : Machine κ) (hnow : fresh.now = 0) :
    (∀ (requests : List (Request κ)) (x : Nibble) (m : Machine κ), m = requests.foldl obey fresh →
      m.now = 0 → m.Echoes x (m.registers.get x)) ↔
    255 * fresh.delay.period < Timer.horizon ∧ 0 < fresh.delay.period := by
  constructor
  · intro hall
    -- The host may put 255 into V0.
    let m : Machine κ := { fresh with registers := Registers.zero.set 0 255 }
    have hecho : m.Echoes 0 255 := hall [.setRegisters (Registers.zero.set 0 255)] 0 m rfl hnow
    have hproduct : m.now + m.delay.period * (m.registers.get 0).toNat =
        255 * fresh.delay.period := by
      rw [show m.now = 0 from hnow, Nat.zero_add]
      exact Nat.mul_comm _ 255
    have hlt : 255 * fresh.delay.period < Timer.horizon := by
      by_contra hge
      obtain ⟨w, w', hw, hw', hx, hx'⟩ := exists_timer_words 0
      have hproceed := (hecho w w' hw hw' hx hx').1
      rw [m.execute_setDelay_overflow w hw (by rw [hx]; omega)] at hproceed
      cases hproceed
    refine ⟨hlt, ?_⟩
    by_contra hzero
    have hempty := m.echoes 0 (by omega)
    rw [if_neg hzero] at hempty
    exact absurd (hecho.unique hempty) (by decide)
  · rintro ⟨hlt, hpos⟩ requests x m rfl hzero
    have hperiod := fresh.period_obey_all requests
    generalize requests.foldl obey fresh = m at hzero hperiod ⊢
    have hvalue := (m.registers.get x).toNat_lt
    have hbefore : m.now + m.delay.period * (m.registers.get x).toNat < Timer.horizon := by
      calc m.now + m.delay.period * (m.registers.get x).toNat
          = fresh.delay.period * (m.registers.get x).toNat := by rw [hzero, hperiod, Nat.zero_add]
        _ ≤ fresh.delay.period * 255 := Nat.mul_le_mul_left _ (by omega)
        _ < Timer.horizon := by omega
    have hecho := m.echoes x hbefore
    rwa [hperiod, if_pos hpos] at hecho

/-- **What a timer rate allows.** A machine can be made if the timer rate is more than 2⁻⁶⁴.
Whatever is then asked of it, FX15 overflows if VX periods from now the clock has run out. Otherwise
FX15 and FX07 leave VX as it was if the rate is below 2 · 10⁹, and zero if not. For every VX and a
clock at zero the rate has to be more than 255 · 2⁻⁶³, too. -/
theorem delay_echoes_iff_rate (keypad : κ) (entropy : UInt64) (text : String) (settings : Settings)
    (h : Rate.parse? text = some settings.timerRate) :
    ((new? settings keypad entropy).isSome ↔
      (Single.ofUnits false Single.one (2 ^ 64)).ge settings.timerRate = false) ∧
    ∀ fresh, new? settings keypad entropy = some fresh →
      (∀ (requests : List (Request κ)) (x : Nibble) (m : Machine κ),
        m = requests.foldl obey fresh →
        (Timer.horizon ≤ m.now + fresh.delay.period * (m.registers.get x).toNat →
          ∀ w, Operation.setDelay.Covers w → w.x = x → (m.execute w).2 = .overflow) ∧
        (m.now + fresh.delay.period * (m.registers.get x).toNat < Timer.horizon →
          m.Echoes x (if settings.timerRate.ge (.ofUnits false (2000000000 * Single.one) 1) then 0
            else m.registers.get x))) ∧
      ((∀ (requests : List (Request κ)) (x : Nibble) (m : Machine κ),
        m = requests.foldl obey fresh → m.now = 0 → m.Echoes x (m.registers.get x)) ↔
        (Single.ofUnits false (255 * Single.one) (2 ^ 63)).ge settings.timerRate = false ∧
          settings.timerRate.ge (.ofUnits false (2000000000 * Single.one) 1) = false) := by
  obtain ⟨H, hc, hfits, hpos⟩ := Rate.counts_of_parse? h
  have hlowest : (Single.ofUnits false Single.one (2 ^ 64)).Counts (2 ^ 85) :=
    ⟨2 ^ 23, 62, by decide, by decide⟩
  have hlow : (Single.ofUnits false (255 * Single.one) (2 ^ 63)).Counts (255 * 2 ^ 86) :=
    ⟨255 * 2 ^ 16, 70, by decide, by decide⟩
  have hhigh : (Single.ofUnits false (2000000000 * Single.one) 1).Counts (15625000 * 2 ^ 156) :=
    ⟨15625000, 156, by decide, rfl⟩
  simp only [← Bool.not_eq_true, hlowest.ge_iff hc, hlow.ge_iff hc, hc.ge_iff hhigh, Nat.not_le]
  refine ⟨new?_isSome_iff hc hfits hpos keypad entropy, fun fresh hnew => ?_⟩
  obtain ⟨hperiod, hnow⟩ := new?_eq_some hc hfits hpos hnew
  rw [echoes_all_iff fresh hnow, hperiod, periodOf_lt_iff hfits hpos, periodOf_pos_iff hfits hpos]
  refine ⟨?_, Iff.rfl⟩
  rintro requests x m rfl
  have hkept := fresh.period_obey_all requests
  rw [hperiod] at hkept
  constructor
  · rintro hover w hw rfl
    exact execute_setDelay_overflow _ w hw (by rwa [hkept])
  · intro hbefore
    have hecho := (requests.foldl obey fresh).echoes x (by rwa [hkept])
    rw [hkept] at hecho
    split_ifs with hfast
    · have hempty : ¬ 0 < periodOf H := by
        rw [periodOf_pos_iff hfits hpos]
        omega
      rwa [if_neg hempty] at hecho
    · have hlasts : 0 < periodOf H := by
        rw [periodOf_pos_iff hfits hpos]
        omega
      rwa [if_pos hlasts] at hecho

/-- 10⁻²⁰ is too low for a period, 10⁻¹⁸ for 255 of them, and 10¹⁰ too high for a nanosecond. -/
theorem delay_echoes_iff_rate_extremes :
    (∃ hz, Rate.parse? "1e-20" = some hz ∧ new? { timerRate := hz } ({} : Script) 0 = none) ∧
    ∀ text ∈ ["1e-18", "1e10"], ∃ hz fresh, Rate.parse? text = some hz ∧
      new? { timerRate := hz } ({} : Script) 0 = some fresh ∧
      ¬ ∀ (requests : List (Request Script)) (x : Nibble) (m : Machine Script),
        m = requests.foldl obey fresh → m.now = 0 → m.Echoes x (m.registers.get x) := by
  have hrates := fun text hz => delay_echoes_iff_rate ({} : Script) 0 text { timerRate := hz }
  have hbroken : ∀ text hz, Rate.parse? text = some hz →
      (Single.ofUnits false Single.one (2 ^ 64)).ge hz = false →
      ¬ ((Single.ofUnits false (255 * Single.one) (2 ^ 63)).ge hz = false ∧
        hz.ge (.ofUnits false (2000000000 * Single.one) 1) = false) →
      ∃ hz fresh, Rate.parse? text = some hz ∧
        new? { timerRate := hz } ({} : Script) 0 = some fresh ∧
        ¬ ∀ (requests : List (Request Script)) (x : Nibble) (m : Machine Script),
          m = requests.foldl obey fresh → m.now = 0 → m.Echoes x (m.registers.get x) := by
    intro text hz hparse hmade hrange
    obtain ⟨hsome, hall⟩ := hrates text hz hparse
    obtain ⟨fresh, hfresh⟩ := Option.isSome_iff_exists.mp (hsome.mpr hmade)
    exact ⟨hz, fresh, hparse, hfresh, fun h => hrange ((hall fresh hfresh).2.mp h)⟩
  constructor
  · have hparse : Rate.parse? "1e-20" = some (.ofUnits false Single.one (10 ^ 20)) := by
      decide
    refine ⟨_, hparse, ?_⟩
    rw [← Option.not_isSome_iff_eq_none, (hrates "1e-20" (.ofUnits false _ _) hparse).1]
    decide
  · simp only [List.forall_mem_cons, List.not_mem_nil, false_implies, implies_true, and_true]
    constructor
    · exact hbroken _ (.ofUnits false Single.one (10 ^ 18)) (by decide) (by decide)
        (by decide)
    · exact hbroken _ (.ofUnits false (10 ^ 10 * Single.one) 1) (by decide)
        (by decide) (by decide)

end Machine

end Chip8
