import Chip8.Proofs.Order

/-!
# The index lists of a table

A lookup scans the list of one family. All lists grow together: a definition goes to the end of each
list whose family it can answer. So a list ascends, and it has the definitions that answer some word
of its family and no others.
-/

namespace Chip8

/-! ## Families of a definition -/

namespace Definition

/-- Some word of the family is answered. -/
def Answers (d : Definition) (family : Nibble) : Prop :=
  ∃ w : Word, w.family = family ∧ d.respondsTo w = true

/-- Only the first character can rule out a family: the other three can always be met. -/
theorem answers_iff_admits (d : Definition) (family : Nibble) :
    d.Answers family ↔ d.admits family = true := by
  constructor
  · rintro ⟨w, rfl, hr⟩
    exact d.admits_of_respondsTo w hr
  · intro h
    -- The family on top, then what the pattern wants.
    obtain ⟨w, hw⟩ := Word.exists_nibbles fun i =>
      if i = 0 then family else (Pattern.literal? d.pattern i).getD 0
    refine ⟨w, ?_, ?_⟩
    · rw [Word.family_eq_nibble, hw 0 (by omega), if_pos rfl]
    · rw [respondsTo_iff]
      intro i hi digit hdigit
      rw [hw i hi]
      split
      · next hfirst =>
        subst hfirst
        rw [admits, family?_eq, hdigit] at h
        have hsame : digit = family := by simpa using h
        exact hsame.symm
      · rw [hdigit, Option.getD_some]

end Definition

namespace Table

/-! ## Growing lists -/

/-- The list ascends and has the indices of the definitions that answer words of the family. -/
structure Lists (ds : List Definition) (family : Nibble) (listed : List Nat) : Prop where
  ascending : listed.Pairwise (· < ·)
  mem_iff : ∀ i, i ∈ listed ↔ ∃ d, ds[i]? = some d ∧ d.Answers family

namespace Lists

variable {ds : List Definition} {d : Definition} {family : Nibble} {listed : List Nat}

theorem nil (family : Nibble) : Lists [] family [] := by
  refine ⟨.nil, ?_⟩
  simp

theorem lt_length (h : Lists ds family listed) {i : Nat} (hi : i ∈ listed) : i < ds.length := by
  obtain ⟨d, hd, -⟩ := (h.mem_iff i).1 hi
  exact (List.getElem?_eq_some_iff.1 hd).1

theorem exists_getElem?_concat_iff {p : Definition → Prop} {i : Nat} :
    (∃ e, (ds ++ [d])[i]? = some e ∧ p e) ↔
      (∃ e, ds[i]? = some e ∧ p e) ∨ i = ds.length ∧ p d := by
  rcases Nat.lt_trichotomy i ds.length with hold | rfl | hpast
  · simp [List.getElem?_append_left hold, hold.ne]
  · simp
  · have hlength : (ds ++ [d]).length ≤ i := by simpa using Nat.succ_le_of_lt hpast
    simp [List.getElem?_eq_none hlength, List.getElem?_eq_none hpast.le, hpast.ne']

/-- A definition that answers words of the family comes last. -/
theorem push (h : Lists ds family listed) (hd : d.Answers family) :
    Lists (ds ++ [d]) family (listed ++ [ds.length]) := by
  constructor
  · rw [List.pairwise_append]
    refine ⟨h.ascending, List.pairwise_singleton _ _, ?_⟩
    intro i hi j hj
    rw [List.mem_singleton.1 hj]
    exact h.lt_length hi
  · intro i
    rw [List.mem_append, h.mem_iff, List.mem_singleton, exists_getElem?_concat_iff,
      and_iff_left hd]

/-- Any other definition leaves the list alone. -/
theorem skip (h : Lists ds family listed) (hd : ¬ d.Answers family) :
    Lists (ds ++ [d]) family listed := by
  refine ⟨h.ascending, ?_⟩
  intro i
  rw [h.mem_iff, exists_getElem?_concat_iff, or_iff_left fun hnew => hd hnew.2]

end Lists

theorem lists_indices (ds : List Definition) (family : Nibble) :
    Lists ds family (indices ds family) := by
  induction ds using List.reverseRecOn with
  | nil => exact .nil family
  | append_singleton ds d ih =>
    rw [indices_concat]
    split
    · next h => exact ih.push ((d.answers_iff_admits family).2 h)
    · next h =>
      rw [List.append_nil]
      exact ih.skip ((d.answers_iff_admits family).not.2 h)

/-- **Family lists.** The list of a family ascends, so no index is on it twice, and it has an index
exactly if the definition there responds to some word of the family. -/
theorem families_list_responders (ds : List Definition) (family : Nibble) :
    let listed := (ofList ds).families.get family
    listed.Pairwise (· < ·) ∧ listed.Nodup ∧
    ∀ i, i ∈ listed ↔ ∃ h : i < ds.length, ∃ w : Word, w.family = family ∧
      ds[i].respondsTo w = true := by
  intro listed
  have h : Lists ds family listed := by
    rw [show listed = indices ds family from families_ofList ds family]
    exact lists_indices ds family
  refine ⟨h.ascending, h.ascending.imp Nat.ne_of_lt, ?_⟩
  intro i
  rw [h.mem_iff]
  constructor
  · rintro ⟨d, hd, hanswers⟩
    obtain ⟨hi, rfl⟩ := List.getElem?_eq_some_iff.1 hd
    exact ⟨hi, hanswers⟩
  · rintro ⟨hi, hanswers⟩
    exact ⟨ds[i], List.getElem?_eq_getElem hi, hanswers⟩

-- `XNN4` is on every list, in its place.
example : (ofList [.ofPattern "1NNN" .jump "", .ofPattern "XNN4" .draw "",
    .ofPattern "2NNN" .call ""]).families.get 2 = [1, 2] := by
  decide

end Table

end Chip8
