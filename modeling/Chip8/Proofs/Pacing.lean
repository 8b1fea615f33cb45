import Chip8.Proofs.Frames
import Chip8.Proofs.Singles

/-!
# When an update returns

A step lowers the budget only if its time step is not rounded away. Below 2 ^ J units half a place
is 2 ^ (J - 25). A longer time step uses up every budget of at most 2 ^ J, and one that is not
longer never brings a larger budget below 2 ^ J. How fast a machine may be paced is then a matter of
how far budgets grow.
-/

namespace Chip8

open Number

variable {σ : Type} {step : σ → σ × Outcome} {t b b' dt : Single} {s s' : σ}
  {outcomes : List Outcome} {answer : Outcome} {T B J L : Nat}

/-! ## Rounded budgets -/

theorem lt_limit {n : Nat} (h : n ≤ 2 ^ 172) : n < Single.limit := by
  have hlimit : 2 ^ 172 < Single.limit := by decide
  omega

theorem nearest_le_pow {n : Nat} (h : n ≤ 2 ^ J) : nearest 24 n 1 ≤ 2 ^ J :=
  nearest_le_of_le (by decide) Nat.one_pos (fits_pow (by decide) J) (by omega)

theorem counts_sub (hb : b.Counts B) (ht : t.Counts T) (hT : T ≤ B) (hB : B ≤ 2 ^ 171) :
    (b.sub t).Counts (nearest 24 (B - T) 1) :=
  hb.sub ht hT (lt_limit (nearest_le_pow (by omega)))

theorem longestFrame_eq : longestFrame = .finite false (2 ^ 23) 124 := by decide

theorem longestFrame_counts : longestFrame.Counts (2 ^ 147) := ⟨2 ^ 23, 124, longestFrame_eq, rfl⟩

theorem frame_counts (hdt : dt.ge .zero) :
    (∃ C ≤ 2 ^ 147, (dt.min longestFrame).Counts C) ∨
      ∃ e, dt.min longestFrame = .finite true 0 e := by
  cases dt with
  | nan => simp [Single.ge] at hdt
  | infinite s =>
    cases s with
    | true => simp [Single.ge, Single.zero] at hdt
    | false =>
      left
      refine ⟨2 ^ 147, Nat.le_refl _, ?_⟩
      rw [longestFrame_eq]
      exact longestFrame_eq ▸ longestFrame_counts
  | finite s u e =>
    cases s with
    | true =>
      have hu : u = 0 := by simpa [Single.ge, Single.zero] using hdt
      subst hu
      right
      refine ⟨e, ?_⟩
      rw [longestFrame_eq]
      simp [Single.min, Single.ge]
    | false =>
      left
      have hc := Single.counts_finite u e
      have hmin : (Single.finite false u e).min longestFrame =
          if (Single.finite false u e).ge longestFrame then longestFrame
          else .finite false u e := by
        rw [longestFrame_eq]
        rfl
      rw [hmin]
      split
      · exact ⟨2 ^ 147, Nat.le_refl _, longestFrame_counts⟩
      · rename_i hge
        rw [hc.ge_iff longestFrame_counts] at hge
        exact ⟨_, by omega, hc⟩

/-- A frame adds at most a quarter of a second. -/
theorem counts_add_frame (hb : b.Counts B) (hB : B ≤ 2 ^ 171) (hdt : dt.ge .zero) :
    ∃ C ≤ 2 ^ 147, (b.add (dt.min longestFrame)).Counts (nearest 24 (B + C) 1) := by
  rcases frame_counts hdt with ⟨C, hC, hc⟩ | ⟨e, he⟩
  · exact ⟨C, hC, hb.add hc (lt_limit (nearest_le_pow (by omega)))⟩
  · -- Adding a negative zero is taking away a zero.
    refine ⟨0, Nat.zero_le _, ?_⟩
    have hzero : (Single.finite false 0 e).Counts 0 := ⟨0, e, rfl, by simp⟩
    rw [he]
    exact counts_sub hb hzero (Nat.zero_le _) hB

/-! ## The loop -/

/-- The time step is infinite or more than `n` units. -/
def Exceeds (t : Single) (n : Nat) : Prop := t = .infinite false ∨ ∃ T, t.Counts T ∧ n < T

theorem Exceeds.counts_of_ge {n : Nat} (ht : Exceeds t n) (hb : b.Counts B) (h : b.ge t) :
    ∃ T, t.Counts T ∧ n < T ∧ T ≤ B := by
  rcases ht with rfl | ⟨T, ht, hT⟩
  · obtain ⟨u, e, rfl, -⟩ := hb
    simp [Single.ge] at h
  · exact ⟨T, ht, hT, (hb.ge_iff ht).mp h⟩

theorem spends_of_exceeds (step : σ → σ × Outcome) (hJ : J ≤ 171)
    (ht : Exceeds t (2 ^ (J - 25))) (s : σ) (hb : b.Counts B) (hB : B ≤ 2 ^ J) :
    ∃ outcomes b' s' answer, Spends .single step t b s outcomes b' s' answer := by
  induction B using Nat.strong_induction_on generalizing b s with
  | _ B ih =>
    cases hge : b.ge t with
    | false => exact ⟨[], b, s, .proceed, .stop hge⟩
    | true =>
      cases ho : (step s).2 with
      | wait => exact ⟨_, _, _, _, .wait hge ho⟩
      | failed _ | overflow => exact ⟨_, _, _, _, .halt hge (by simp [ho, Outcome.Succeeds])⟩
      | proceed =>
        obtain ⟨T, htc, hT, hTB⟩ := ht.counts_of_ge hb hge
        have hB' : B ≤ 2 ^ 171 := hB.trans (Nat.pow_le_pow_right (by decide) hJ)
        have hlower : nearest 24 (B - T) 1 < B := by
          have hplace : 2 ^ J < 2 ^ (24 + 1) * T := by
            calc 2 ^ J ≤ 2 ^ (25 + (J - 25)) := Nat.pow_le_pow_right (by decide) (by omega)
              _ = 2 ^ 25 * 2 ^ (J - 25) := Nat.pow_add ..
              _ < 2 ^ (24 + 1) * T := Nat.mul_lt_mul_of_pos_left hT (by decide)
          have hadd := nearest_lt_add (p := 24) (by decide) (show B - T < 2 ^ J by omega) hplace
          omega
        obtain ⟨os, b', s', answer, hrest⟩ :=
          ih _ hlower (step s).1 (counts_sub hb htc hTB hB') (by omega)
        exact ⟨_, _, _, _, .proceed hge ho hrest⟩

/-- What an update leaves: less than a time step, nothing, or what a failed step did not use. -/
theorem Spends.counts {n : Nat} (h : Spends .single step t b s outcomes b' s' answer)
    (ht : Exceeds t n) (hJ : J ≤ 171) (hb : b.Counts B) (hB : B ≤ 2 ^ J) :
    ∃ B', b'.Counts B' ∧ B' ≤ 2 ^ J ∧ (b'.ge t = false ∨ B' = 0 ∨
      ¬ answer.Succeeds ∧ ∀ T, t.Counts T → B' ≤ nearest 24 (2 ^ J - T) 1) := by
  have hpow : 2 ^ J ≤ 2 ^ 171 := Nat.pow_le_pow_right (by decide) hJ
  induction h generalizing B with
  | stop hge => exact ⟨B, hb, hB, .inl hge⟩
  | proceed hge _ _ ih =>
    obtain ⟨T, htc, -, hTB⟩ := ht.counts_of_ge hb hge
    exact ih (counts_sub hb htc hTB (by omega)) (nearest_le_pow (by omega))
  | wait hge => exact ⟨0, Single.counts_zero, Nat.zero_le _, .inr (.inl rfl)⟩
  | halt hge hs =>
    obtain ⟨T, htc, -, hTB⟩ := ht.counts_of_ge hb hge
    refine ⟨_, counts_sub hb htc hTB (by omega), nearest_le_pow (by omega), .inr (.inr ⟨hs, ?_⟩)⟩
    intro T' htc'
    obtain rfl := htc.unique htc'
    exact nearest_mono (by decide) Nat.one_pos Nat.one_pos (by omega)

theorem pow_le_nearest_sub (hJ : 25 ≤ J) (hB : 2 ^ J ≤ B) (hT : T ≤ 2 ^ (J - 25)) :
    2 ^ J ≤ nearest 24 (B - T) 1 := by
  have hsplit : 2 ^ J = 2 ^ 25 * 2 ^ (J - 25) := by rw [← Nat.pow_add, Nat.add_sub_of_le hJ]
  have hhalf : 2 ^ J - 2 ^ (J - 25) = (2 ^ 25 - 1) * 2 ^ (J - 25) := by
    rw [Nat.sub_mul, ← hsplit, Nat.one_mul]
  have htie : nearest 24 (2 ^ J - 2 ^ (J - 25)) 1 = 2 ^ J := by
    have hexcess : excess 24 (2 ^ 25 - 1) = 1 := by decide
    have heven : divNearest (2 ^ 25 - 1) (2 ^ 1) = 2 ^ 24 := by decide
    rw [hhalf, nearest_mul_pow (by decide) (by decide), hexcess, heven, hsplit]
    ring
  calc 2 ^ J = nearest 24 (2 ^ J - 2 ^ (J - 25)) 1 := htie.symm
    _ ≤ nearest 24 (B - T) 1 := nearest_mono (by decide) Nat.one_pos Nat.one_pos (by omega)

/-- A time step of half a place never brings the budget below a power of two. -/
theorem not_spends_of_half_place (P : σ → Prop)
    (hP : ∀ s, P s → (step s).2 = .proceed ∧ P (step s).1) (hlow : 25 ≤ J) (ht : t.Counts T)
    (hT : T ≤ 2 ^ (J - 25)) (hs : P s) (hb : b.Counts B) (hJ : 2 ^ J ≤ B) (hB : B ≤ 2 ^ 171) :
    ¬ Spends .single step t b s outcomes b' s' answer := by
  intro h
  have hle : T ≤ 2 ^ J := hT.trans (Nat.pow_le_pow_right (by decide) (by omega))
  induction h generalizing B with
  | stop hge =>
    have hcover := (hb.ge_iff ht).mpr (by omega)
    simp [Reckoning.single, hcover] at hge
  | proceed _ _ _ ih =>
    exact ih (hP _ hs).2 (counts_sub hb ht (by omega) hB) (pow_le_nearest_sub hlow hJ hT)
      (nearest_le_pow (by omega))
  | wait _ ho => simp [(hP _ hs).1] at ho
  | halt _ ho => exact ho (.inl (hP _ hs).1)

/-! ## Updates -/

variable {κ : Type} {allowed : Outcome → Prop} {p q : Pacer}

theorem Pacer.update_of_spends (h : Spends .single step q.timeStep
      (Reckoning.single.add q.budget (Reckoning.single.cap dt)) s outcomes b' s' answer) :
    ∃ fuel, q.update step fuel dt s = some ({ q with budget := b' }, s', answer) :=
  (update_returns_iff step q { q with budget := b' } dt s s' answer).mpr ⟨rfl, outcomes, h⟩

/-- The pacers that updates with allowed answers lead to. Between two of them the host may do with
the machine what it likes. -/
inductive Pacer.Reaches (κ : Type) [Keypad κ] (allowed : Outcome → Prop) (p : Pacer) : Pacer → Prop
  | start : Reaches κ allowed p p
  | update {q q' : Pacer} {fuel : Nat} {dt : Single} {m m' : Machine κ} {answer : Outcome}
      (h : Reaches κ allowed p q) (hdt : dt.ge .zero)
      (hq : q.update Machine.step fuel dt m = some (q', m', answer)) (ha : allowed answer) :
      Reaches κ allowed p q'

/-- Every frame of every program is over at some time. -/
def Pacer.Returns (κ : Type) [Keypad κ] (p : Pacer) : Prop :=
  ∀ (dt : Single) (m : Machine κ), dt.ge .zero →
    ∃ fuel, (p.update Machine.step fuel dt m).isSome

/-- Updates keep the budget at `L` or less and start from at most 2 ^ J, where the loop ends. -/
structure Regime (allowed : Outcome → Prop) (t : Single) (L J : Nat) : Prop where
  size : J ≤ 171
  exceeds : Exceeds t (2 ^ (J - 25))
  start : nearest 24 (L + 2 ^ 147) 1 ≤ 2 ^ J
  bound : L ≤ 2 ^ 171
  /-- The budget that the loop leaves is `L` or less again. -/
  back : 2 ^ J ≤ L ∨ ∃ T, t.Counts T ∧ T ≤ L ∧
    ((∀ answer, allowed answer → answer.Succeeds) ∨ nearest 24 (2 ^ J - T) 1 ≤ L)

namespace Regime

variable [Keypad κ]

theorem counts_start (h : Regime allowed t L J) (hb : b.Counts B) (hB : B ≤ L) (hdt : dt.ge .zero) :
    ∃ B₀ ≤ 2 ^ J, (b.add (dt.min longestFrame)).Counts B₀ := by
  obtain ⟨C, hC, hc⟩ := counts_add_frame hb (hB.trans h.bound) hdt
  have hle : nearest 24 (B + C) 1 ≤ nearest 24 (L + 2 ^ 147) 1 :=
    nearest_mono (by decide) Nat.one_pos Nat.one_pos (by omega)
  exact ⟨_, hle.trans h.start, hc⟩

theorem counts_left (h : Regime allowed t L J) (hb : b.Counts B) (hB : B ≤ 2 ^ J)
    (hspends : Spends .single step t b s outcomes b' s' answer) (ha : allowed answer) :
    ∃ B' ≤ L, b'.Counts B' := by
  obtain ⟨B', hb', hle, hleft⟩ := hspends.counts h.exceeds h.size hb hB
  refine ⟨B', ?_, hb'⟩
  rcases h.back with hL | ⟨T, htc, hT, hback⟩
  · exact hle.trans hL
  rcases hleft with hge | rfl | ⟨hfail, hhalt⟩
  · have hlt : ¬ T ≤ B' := by simp [← hb'.ge_iff htc, hge]
    omega
  · exact Nat.zero_le _
  · rcases hback with hsucceeds | hrest
    · exact absurd (hsucceeds _ ha) hfail
    · exact (hhalt T htc).trans hrest

theorem reaches (h : Regime allowed p.timeStep L J) (hp : p.budget.Counts 0)
    (hq : p.Reaches κ allowed q) : q.timeStep = p.timeStep ∧ ∃ B ≤ L, q.budget.Counts B := by
  induction hq with
  | start => exact ⟨rfl, 0, Nat.zero_le _, hp⟩
  | update _ hdt hq ha ih =>
    obtain ⟨htime, B, hB, hb⟩ := ih
    obtain ⟨htime', outcomes, hspends⟩ := (update_returns_iff Machine.step _ _ _ _ _ _).mp ⟨_, hq⟩
    obtain ⟨B₀, hB₀, hb₀⟩ := h.counts_start hb hB hdt
    rw [htime] at htime' hspends
    exact ⟨htime', h.counts_left hb₀ hB₀ hspends ha⟩

theorem returns (h : Regime allowed p.timeStep L J) (hp : p.budget.Counts 0)
    (hq : p.Reaches κ allowed q) : q.Returns κ := by
  intro dt m hdt
  obtain ⟨htime, B, hB, hb⟩ := h.reaches hp hq
  obtain ⟨B₀, hB₀, hb₀⟩ := h.counts_start hb hB hdt
  rw [← htime] at h
  obtain ⟨outcomes, b', m', answer, hspends⟩ :=
    spends_of_exceeds Machine.step h.size h.exceeds m hb₀ hB₀
  obtain ⟨fuel, hupdate⟩ := Pacer.update_of_spends hspends
  exact ⟨fuel, by simp [hupdate]⟩

end Regime

/-- If no step fails, a frame adds to less than a time step. -/
theorem regime_of_success (ht : Exceeds t (2 ^ 122)) : ∃ L J, Regime Outcome.Succeeds t L J := by
  rcases ht with rfl | ⟨T, htc, hT⟩
  · exact ⟨2 ^ 171, 171, by decide, .inl rfl, by decide, by decide, .inl (by decide)⟩
  rcases Nat.lt_or_ge (2 ^ 147) T with hlarge | hle
  · exact ⟨2 ^ 171, 171, by decide, .inr ⟨T, htc, by omega⟩, by decide, by decide,
      .inl (by decide)⟩
  rcases Nat.lt_or_ge (2 ^ 123) T with hmiddle | hsmall
  · exact ⟨2 ^ 147, 148, by decide, .inr ⟨T, htc, hmiddle⟩, by decide, by decide,
      .inr ⟨T, htc, hle, .inl fun _ h => h⟩⟩
  · exact ⟨2 ^ 123, 147, by decide, .inr ⟨T, htc, hT⟩, by decide, by decide,
      .inr ⟨T, htc, hsmall, .inl fun _ h => h⟩⟩

/-- Steps that fail leave their frames in the budget, until a frame is half a place of it. -/
theorem regime_of_any (ht : Exceeds t (2 ^ 145 + 2 ^ 121)) : ∃ L J, Regime allowed t L J := by
  rcases ht with rfl | ⟨T, htc, hT⟩
  · exact ⟨2 ^ 171, 171, by decide, .inl rfl, by decide, by decide, .inl (by decide)⟩
  rcases Nat.lt_or_ge (2 ^ 146) T with hlarge | hsmall
  · exact ⟨2 ^ 171, 171, by decide, .inr ⟨T, htc, hlarge⟩, by decide, by decide,
      .inl (by decide)⟩
  · refine ⟨2 ^ 170 - 2 ^ 146, 170, by decide, .inr ⟨T, htc, by omega⟩, by decide,
      by decide, .inr ⟨T, htc, by omega, .inr ?_⟩⟩
    calc nearest 24 (2 ^ 170 - T) 1 ≤ nearest 24 (2 ^ 170 - (2 ^ 145 + 2 ^ 121)) 1 :=
          nearest_mono (by decide) Nat.one_pos Nat.one_pos (by omega)
      _ ≤ 2 ^ 170 - 2 ^ 146 := by decide

/-! ## Machines that keep an update busy -/

namespace Machine

/-- A machine about to run a program at address 0, at this keypad. -/
def held (keypad : κ) (program : List UInt8) : Machine κ := { bare program with keypad }

theorem held_reads_iff (keypad : κ) (program : List UInt8) (w : Word) :
    (held keypad program).Reads w ↔ (bare program).Reads w := Iff.rfl

variable [Keypad κ]

theorem step_held_jump (keypad : κ) :
    (held keypad [0x10, 0x00]).step = (held keypad [0x10, 0x00], .proceed) := by
  have hreads : (held keypad [0x10, 0x00]).Reads 0x1000 := by
    rw [held_reads_iff]
    exact ⟨by decide, by decide +kernel⟩
  have hcovers : Operation.jump.Covers 0x1000 := show Word.family 0x1000 = 1 by decide
  rw [step_of_reads _ _ hreads, execute_of_covers _ _ _ hcovers]
  rfl

theorem step_held_nothing (keypad : κ) :
    (held keypad []).step = (held keypad [], .failed (.unsupported 0 0)) := by
  have hreads : (held keypad []).Reads 0 := by
    rw [held_reads_iff]
    exact ⟨by decide, by decide⟩
  have hcovers : Operation.native.Covers 0 := ⟨by decide, by decide, by decide⟩
  rw [step_of_reads _ _ hreads, execute_of_covers _ _ _ hcovers]
  rfl

end Machine

namespace Pacer

theorem counts_longest (hb : q.budget.Counts B) (hB : B ≤ 2 ^ 171) :
    (Reckoning.single.add q.budget (Reckoning.single.cap longestFrame)).Counts
      (nearest 24 (B + 2 ^ 147) 1) := by
  have hcap : Reckoning.single.cap longestFrame = longestFrame := by decide
  rw [hcap]
  exact hb.add longestFrame_counts (lt_limit (nearest_le_pow (by omega)))

theorem nearest_longest_le (hB : B ≤ 2 ^ 171) : nearest 24 (B + 2 ^ 147) 1 ≤ 2 ^ 171 := by
  calc nearest 24 (B + 2 ^ 147) 1 ≤ nearest 24 (2 ^ 171 + 2 ^ 147) 1 :=
        nearest_mono (by decide) Nat.one_pos Nat.one_pos (by omega)
    _ ≤ 2 ^ 171 := by decide

variable [Keypad κ]

theorem not_returns (keypad : κ) (hb : q.budget.Counts B) (hB : B ≤ 2 ^ 171)
    (ht : q.timeStep.Counts T) (hlow : 25 ≤ J) (hT : T ≤ 2 ^ (J - 25))
    (hJ : 2 ^ J ≤ nearest 24 (B + 2 ^ 147) 1) : ¬ q.Returns κ := by
  intro h
  -- A program that jumps to itself gives the loop no other reason to end.
  obtain ⟨fuel, hsome⟩ := h longestFrame (.held keypad [0x10, 0x00]) (by decide)
  obtain ⟨⟨q', m', answer⟩, hupdate⟩ := Option.isSome_iff_exists.mp hsome
  obtain ⟨-, outcomes, hspends⟩ :=
    (update_returns_iff Machine.step _ _ _ _ _ _).mp ⟨fuel, hupdate⟩
  refine not_spends_of_half_place (· = .held keypad [0x10, 0x00]) ?_ hlow ht hT rfl
    (counts_longest hb hB) hJ (nearest_longest_le hB) hspends
  rintro m rfl
  simp [Machine.step_held_jump]

/-- Updates that fail let the budget grow by half a frame each. -/
theorem reaches_full (keypad : κ) (hp : p.budget.Counts 0) (ht : p.timeStep.Counts T)
    (hT : T ≤ 2 ^ 145) (n : Nat) (hn : n + 2 ≤ 2 ^ 24) :
    ∃ q, p.Reaches κ (· ≠ .overflow) q ∧ q.timeStep = p.timeStep ∧
      ∃ B ≤ 2 ^ 171, n * 2 ^ 146 ≤ B ∧ q.budget.Counts B := by
  induction n with
  | zero =>
    refine ⟨p, .start, rfl, 0, Nat.zero_le _, ?_, hp⟩
    rw [Nat.zero_mul]
  | succ n ih =>
    obtain ⟨q, hq, htime, B, hB, hlow, hb⟩ := ih (by omega)
    have hstart := counts_longest hb hB
    have hfits : ∀ k < 2 ^ 24, Fits 24 (k * 2 ^ 146) := fun k hk => ⟨k, 146, hk, rfl⟩
    have hB₀ : (n + 2) * 2 ^ 146 ≤ nearest 24 (B + 2 ^ 147) 1 :=
      le_nearest_of_le (by decide) Nat.one_pos (hfits _ (by omega)) (by omega)
    have hTB₀ : T ≤ nearest 24 (B + 2 ^ 147) 1 := by omega
    have hB₀' := nearest_longest_le hB
    rw [← htime] at ht
    have hspends : Spends .single Machine.step q.timeStep _ (.held keypad []) _ _ _ _ :=
      .halt ((hstart.ge_iff ht).mpr hTB₀) (by simp [Machine.step_held_nothing, Outcome.Succeeds])
    obtain ⟨fuel, hupdate⟩ := update_of_spends hspends
    refine ⟨_, .update hq (by decide) hupdate ?_, htime, _, ?_, ?_,
      counts_sub hstart ht hTB₀ hB₀'⟩
    · simp [Machine.step_held_nothing]
    · exact nearest_le_pow (by omega)
    · exact le_nearest_of_le (by decide) Nat.one_pos (hfits _ (by omega)) (by omega)

end Pacer

/-! ## Rates -/

/-- A rate below `w` of a place is slower by a place. -/
theorem exceeds_of_rate {hz : Single} {H w e n : Nat} (hc : hz.Counts H) (hfits : Fits 24 H)
    (hpos : 0 < H) (hw : 2 ^ 24 ≤ 2 * (w - 1)) (hH : H < w * 2 ^ e)
    (hn : n < Single.inverseOf ((w - 1) * 2 ^ e)) : Exceeds hz.inverse n := by
  rcases hc.inverse hpos with ⟨hinf, -⟩ | hcount
  · exact .inl hinf
  · have hgap := hfits.le_pred hw hH
    exact .inr ⟨_, hcount, hn.trans_le (Single.inverseOf_anti hpos hgap)⟩

theorem timeStep_of_rate {hz : Single} {H : Nat} (hc : hz.Counts H) (hpos : 0 < H)
    (h : Single.inverseOf H ≤ 2 ^ 172) : hz.inverse.Counts (Single.inverseOf H) := by
  rcases hc.inverse hpos with ⟨-, hlarge⟩ | hcount
  · have hlt := lt_limit h
    omega
  · exact hcount

/-- **When updates return.** As long as no step has failed, every update with every program returns
if and only if the rate is below 2 ^ 27 instructions a second. An update that fails leaves the rest
of its frame in the budget, and after any number of those the rate has to be below 16. -/
theorem Pacer.returns_iff_rate [Keypad κ] (keypad : κ) (text : String) (settings : Settings)
    (h : Rate.parse? text = some settings.cpuRate) :
    ((∀ q, settings.pacer.Reaches κ Outcome.Succeeds q → q.Returns κ) ↔
      settings.cpuRate.ge (.ofUnits false (2 ^ 27 * Single.one) 1) = false) ∧
    ((∀ q, settings.pacer.Reaches κ (· ≠ .overflow) q → q.Returns κ) ↔
      settings.cpuRate.ge (.ofUnits false (2 ^ 4 * Single.one) 1) = false) := by
  obtain ⟨H, hc, hfits, hpos⟩ := Rate.counts_of_parse? h
  have hbudget : settings.pacer.budget.Counts 0 := Single.counts_zero
  have hfast : (Single.ofUnits false (2 ^ 27 * Single.one) 1).Counts (2 ^ 176) :=
    ⟨2 ^ 23, 153, by decide, by decide⟩
  have hmodest : (Single.ofUnits false (2 ^ 4 * Single.one) 1).Counts (2 ^ 153) :=
    ⟨2 ^ 23, 130, by decide, by decide⟩
  rw [← Bool.not_eq_true, ← Bool.not_eq_true, hc.ge_iff hfast, hc.ge_iff hmodest]
  refine ⟨⟨fun hall hge => ?_, fun hlt q hq => ?_⟩, fun hall hge => ?_, fun hlt q hq => ?_⟩
  · have hT : Single.inverseOf H ≤ 2 ^ 122 :=
      (Single.inverseOf_anti (by decide) hge).trans (by decide)
    have ht := timeStep_of_rate hc hpos (by omega)
    refine not_returns (J := 147) keypad hbudget (Nat.zero_le _) ht (by decide) hT ?_
      (hall _ .start)
    decide
  · have hslow : Exceeds settings.pacer.timeStep (2 ^ 122) :=
      exceeds_of_rate (w := 2 ^ 24) (e := 152) hc hfits hpos (by decide) (by omega)
        (by decide)
    obtain ⟨L, J, hregime⟩ := regime_of_success hslow
    exact hregime.returns hbudget hq
  · have hT : Single.inverseOf H ≤ 2 ^ 145 :=
      (Single.inverseOf_anti (by decide) hge).trans (by decide)
    have ht := timeStep_of_rate hc hpos (by omega)
    obtain ⟨q, hq, htime, B, hB, hfull, hb⟩ :=
      reaches_full keypad hbudget ht hT (2 ^ 24 - 2) (by decide)
    have htq : q.timeStep.Counts (Single.inverseOf H) := by rwa [htime]
    refine not_returns (J := 170) keypad hb hB htq (by decide) hT ?_ (hall _ hq)
    exact le_nearest_of_le (by decide) Nat.one_pos (fits_pow (by decide) 170) (by omega)
  · have hslow : Exceeds settings.pacer.timeStep (2 ^ 145 + 2 ^ 121) :=
      exceeds_of_rate (w := 2 ^ 24) (e := 129) hc hfits hpos (by decide) (by omega)
        (by decide)
    obtain ⟨L, J, hregime⟩ := regime_of_any hslow
    exact hregime.returns hbudget hq

/-- An update at 134217728 instructions a second may not return. -/
theorem Pacer.returns_iff_rate_limit :
    Rate.parse? "134217728" = some (.ofUnits false (2 ^ 27 * Single.one) 1) ∧
      ¬ ∀ q, (Settings.pacer { cpuRate := .ofUnits false (2 ^ 27 * Single.one) 1 }).Reaches Script
        Outcome.Succeeds q → q.Returns Script := by
  have hparse : Rate.parse? "134217728" = some (.ofUnits false (2 ^ 27 * Single.one) 1) := by
    decide
  refine ⟨hparse, fun hall => ?_⟩
  have hslow := (returns_iff_rate ({} : Script) "134217728"
    { cpuRate := .ofUnits false (2 ^ 27 * Single.one) 1 } hparse).1.mp hall
  revert hslow
  decide

end Chip8
