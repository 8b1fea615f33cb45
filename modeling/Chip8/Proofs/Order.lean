import Mathlib.Data.List.FinRange
import Mathlib.Data.List.Nodup
import Mathlib.Order.Fin.Basic
import Chip8.Proofs.InstructionSet
import Chip8.Proofs.Patterns

/-!
# The order of definitions

Which definition counts for a word is decided between those that respond to it. So two definitions
may trade places if no word is answered by both, and what a table answers stays the same. Whether
there is such a word can be told from the two patterns.
-/

namespace Chip8

/-! ## Overlapping definitions -/

/-- Every choice of four nibbles is a word. -/
theorem Word.exists_nibbles (f : Nat → Nibble) : ∃ w : Word, ∀ i < 4, w.nibble i = f i := by
  have hsmall : ∀ i, (UInt16.ofNat (f i).val).toNat = (f i).val := by
    intro i
    rw [UInt16.toNat_ofNat']
    omega
  refine ⟨Pattern.assemble fun i => UInt16.ofNat (f i).val, ?_⟩
  intro i hi
  apply Fin.eq_of_val_eq
  rw [Pattern.nibble_assemble _ _ i hi, hsmall]
  intro j
  rw [hsmall]
  exact (f j).isLt

namespace Definition

/-- Some word is answered by both. -/
def Overlaps (d e : Definition) : Prop :=
  ∃ w, d.respondsTo w = true ∧ e.respondsTo w = true

theorem overlaps_iff (d e : Definition) :
    d.Overlaps e ↔ ∀ i < 4, ∀ a b, Pattern.AsksFor d.pattern i a → Pattern.AsksFor e.pattern i b →
      a = b := by
  constructor
  · rintro ⟨w, hd, he⟩ i hi a b ha hb
    rw [respondsTo_iff_asksFor] at hd he
    rw [← hd i hi a ha, ← he i hi b hb]
  · intro h
    -- Each nibble as the one pattern or the other wants it.
    obtain ⟨w, hw⟩ := Word.exists_nibbles fun i =>
      ((Pattern.literal? d.pattern i).or (Pattern.literal? e.pattern i)).getD 0
    refine ⟨w, ?_, ?_⟩
    · rw [respondsTo_iff]
      intro i hi a ha
      rw [hw i hi, ha]
      rfl
    · rw [respondsTo_iff]
      intro i hi b hb
      rw [hw i hi, hb]
      cases ha : Pattern.literal? d.pattern i with
      | none => rfl
      | some a =>
        rw [Pattern.literal?_eq_some_iff] at ha
        exact h i hi a b ha ((Pattern.literal?_eq_some_iff _ _ _).mp hb)

end Definition

/-! ## Rearranged tables -/

namespace Table

/-- Each definition of `ds` has gone to its place in `es`, and those that overlap have kept their
order. -/
structure Rearranges (ds es : List Definition) (place : Fin ds.length ≃ Fin es.length) : Prop where
  moved : ∀ i, es.get (place i) = ds.get i
  ordered : ∀ i j, (ds.get i).Overlaps (ds.get j) → i < j → place i < place j

/-- The definition at `i` responds and none before it does. -/
def Leads (ds : List Definition) (w : Word) (i : Fin ds.length) : Prop :=
  (ds.get i).respondsTo w = true ∧ ∀ j, (ds.get j).respondsTo w = true → i ≤ j

theorem lookup_eq_some_iff_leads (ds : List Definition) (w : Word) (d : Definition) :
    (ofList ds).lookup w = some d ↔ ∃ i, Leads ds w i ∧ ds.get i = d := by
  rw [lookup_ofList, List.find?_eq_some_iff_getElem]
  constructor
  · rintro ⟨hr, i, hi, rfl, hfirst⟩
    refine ⟨⟨i, hi⟩, ⟨hr, ?_⟩, rfl⟩
    intro j hj
    by_contra hlt
    have hno := hfirst j.val (Nat.lt_of_not_le hlt)
    simp_all
  · rintro ⟨i, ⟨hr, hfirst⟩, rfl⟩
    refine ⟨hr, i.val, i.isLt, rfl, ?_⟩
    intro j hj
    have hno : ¬ (ds.get ⟨j, Nat.lt_trans hj i.isLt⟩).respondsTo w = true := fun hyes =>
      absurd (hfirst _ hyes) (Nat.not_le_of_lt hj)
    simpa using hno

namespace Rearranges

variable {ds es : List Definition} {place : Fin ds.length ≃ Fin es.length}

theorem symm (h : Rearranges ds es place) : Rearranges es ds place.symm := by
  have hcame : ∀ k, ds.get (place.symm k) = es.get k := by
    intro k
    rw [← h.moved, place.apply_symm_apply]
  refine ⟨hcame, ?_⟩
  intro k l ⟨w, hk, hl⟩ hlt
  rcases lt_trichotomy (place.symm k) (place.symm l) with hsame | heq | hother
  · exact hsame
  · exact absurd (place.symm.injective heq) hlt.ne
  · -- Had `l` come from before `k`, it would still stand before it.
    have hback := h.ordered _ _ ⟨w, by rwa [hcame], by rwa [hcame]⟩ hother
    rw [place.apply_symm_apply, place.apply_symm_apply] at hback
    exact absurd hlt hback.asymm

theorem leads (h : Rearranges ds es place) {w : Word} {i : Fin ds.length} (hi : Leads ds w i) :
    Leads es w (place i) := by
  refine ⟨by rw [h.moved]; exact hi.1, ?_⟩
  intro k hk
  rw [← h.symm.moved] at hk
  rcases (hi.2 _ hk).eq_or_lt with rfl | hlt
  · rw [place.apply_symm_apply]
  · have hbefore := h.ordered _ _ ⟨w, hi.1, hk⟩ hlt
    rw [place.apply_symm_apply] at hbefore
    exact hbefore.le

theorem lookup_eq_some (h : Rearranges ds es place) {w : Word} {d : Definition}
    (hd : (ofList ds).lookup w = some d) : (ofList es).lookup w = some d := by
  rw [lookup_eq_some_iff_leads] at hd ⊢
  obtain ⟨i, hi, rfl⟩ := hd
  exact ⟨place i, h.leads hi, h.moved i⟩

theorem lookup_eq (h : Rearranges ds es place) (w : Word) :
    (ofList es).lookup w = (ofList ds).lookup w := by
  apply Option.ext
  intro d
  exact ⟨h.symm.lookup_eq_some, h.lookup_eq_some⟩

end Rearranges

/-! ## The instruction set in another order -/

/-- `00EE` and `00E0` stand before `0NNN`. -/
def NativeLast (ds : List Definition) : Prop :=
  ∀ i j : Fin ds.length, (ds.get i).pattern = "00EE" ∨ (ds.get i).pattern = "00E0" →
    (ds.get j).pattern = "0NNN" → i < j

theorem nodup_operations : (instructionSet.map (·.operation)).Nodup := by
  decide

theorem mem_dropLast_or_eq {d : Definition} (hd : d ∈ instructionSet) :
    d ∈ instructionSet.dropLast ∨
      d = .ofPattern "0NNN" .native "Execute native code - UNSUPPORTED" := by
  rw [instructionSet_eq] at hd
  simpa using hd

theorem pattern_of_family_zero {w : Word} {d : Definition} (hd : d ∈ instructionSet.dropLast)
    (hw : w.family = 0) (hr : d.respondsTo w = true) : d.pattern = "00EE" ∨ d.pattern = "00E0" := by
  have htable : ∀ d ∈ instructionSet.dropLast,
      (d.operation = .ret → d.pattern = "00EE") ∧
      (d.operation = .clearScreen → d.pattern = "00E0") := by
    decide
  have hop := w.operation?_of_covers _ ((respondsTo_iff_covers w d hd).mp hr)
  simp only [Word.operation?, hw] at hop
  split_ifs at hop
  · exact .inr ((htable d hd).2 (Option.some.inj hop).symm)
  · exact .inl ((htable d hd).1 (Option.some.inj hop).symm)
  · exact absurd (Option.some.inj hop).symm (operation_ne_native d hd)

/-- Of two instructions that overlap the later one is `0NNN`. -/
theorem native_of_overlaps {i j : Fin instructionSet.length}
    (h : (instructionSet.get i).Overlaps (instructionSet.get j)) (hlt : i < j) :
    ((instructionSet.get i).pattern = "00EE" ∨ (instructionSet.get i).pattern = "00E0") ∧
      (instructionSet.get j).pattern = "0NNN" := by
  obtain ⟨w, hi, hj⟩ := h
  have hearly : instructionSet.get i ∈ instructionSet.dropLast := by
    have hlen : i.val < instructionSet.dropLast.length := by
      rw [List.length_dropLast]
      omega
    rw [List.get_eq_getElem, ← List.getElem_dropLast hlen]
    exact List.getElem_mem hlen
  rcases mem_dropLast_or_eq (instructionSet.get_mem j) with hlate | hnative
  · -- No word stands for two operations, and no operation stands twice in the set.
    have hop := (w.covers_iff_eq _ _ ((respondsTo_iff_covers w _ hearly).mp hi)).mp
      ((respondsTo_iff_covers w _ hlate).mp hj)
    have hsame := List.inj_on_of_nodup_map nodup_operations (instructionSet.get_mem i)
      (instructionSet.get_mem j) hop
    exact absurd ((nodup_operations.of_map _).get_inj_iff.mp hsame) hlt.ne
  · rw [hnative] at hj ⊢
    exact ⟨pattern_of_family_zero hearly ((native_respondsTo_iff w _).mp hj) hi, rfl⟩

theorem exists_rearranges {es : List Definition} (hperm : instructionSet.Perm es)
    (hlast : NativeLast es) : ∃ place, Rearranges instructionSet es place := by
  classical
  let place : Fin instructionSet.length ≃ Fin es.length :=
    ⟨hperm.idxBij, hperm.symm.idxBij, hperm.idxBij_rightInverse_idxBij_symm,
      hperm.idxBij_leftInverse_idxBij_symm⟩
  have hmoved : ∀ i, es.get (place i) = instructionSet.get i := hperm.getElem_idxBij_eq_getElem
  refine ⟨place, hmoved, ?_⟩
  intro i j hoverlaps hlt
  obtain ⟨hi, hj⟩ := native_of_overlaps hoverlaps hlt
  apply hlast
  · rwa [hmoved]
  · rwa [hmoved]

/-- **The order of definitions.** A table answers the same after any permutation that keeps the order
of definitions that overlap, and two overlap unless their patterns ask for different digits at one
place. So the instructions may stand in any order that has `00EE` and `00E0` before `0NNN`. -/
theorem order_matters_between_overlapping :
    (∀ (ds es : List Definition) (place : Fin ds.length ≃ Fin es.length),
      Rearranges ds es place → ∀ w, (ofList es).lookup w = (ofList ds).lookup w) ∧
    (∀ d e : Definition, d.Overlaps e ↔ ∀ i < 4, ∀ a b,
      Pattern.AsksFor d.pattern i a → Pattern.AsksFor e.pattern i b → a = b) ∧
    ∀ es : List Definition, instructionSet.Perm es → NativeLast es →
      ∀ w, (ofList es).lookup w = standard.lookup w := by
  refine ⟨?_, Definition.overlaps_iff, ?_⟩
  · intro ds es place h
    exact h.lookup_eq
  · intro es hperm hlast
    obtain ⟨place, hplace⟩ := exists_rearranges hperm hlast
    exact hplace.lookup_eq

/-- All instructions backwards but the last, and two definitions of different families. -/
theorem order_matters_between_overlapping_reversed :
    let native : Definition := .ofPattern "0NNN" .native "Execute native code - UNSUPPORTED"
    let jump : Definition := .ofPattern "1NNN" .jump ""
    let call : Definition := .ofPattern "2NNN" .call ""
    (ofList (instructionSet.dropLast.reverse ++ [native])).lookup 0x00E0 = standard.lookup 0x00E0 ∧
    (ofList [call, jump]).lookup 0x1234 = (ofList [jump, call]).lookup 0x1234 := by
  intro native jump call
  obtain ⟨hmoved, hoverlaps, hset⟩ := order_matters_between_overlapping
  constructor
  · apply hset
    · rw [instructionSet_eq]
      exact (List.reverse_perm _).symm.append_right _
    · unfold NativeLast
      decide +kernel
  · apply hmoved [jump, call] [call, jump] (Equiv.swap (0 : Fin 2) 1)
    constructor
    · exact Fin.forall_fin_two.mpr ⟨rfl, rfl⟩
    · intro (i : Fin 2) (j : Fin 2) hov (hlt : i < j)
      obtain ⟨rfl, rfl⟩ : i = 0 ∧ j = 1 := by omega
      have hdigit := (hoverlaps jump call).mp hov 0 (by decide) 1 2 ⟨'1', by decide⟩ ⟨'2', by decide⟩
      exact absurd hdigit (by decide)

end Table

end Chip8
