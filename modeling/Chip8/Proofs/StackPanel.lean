import Chip8.Proofs.Numerals
import Chip8.Proofs.RegisterPanel

/-!
# What the stack panel lists

Each call has a line with its number in the whole stack, and the newest one stands last. Where there
are more calls than lines, the oldest give way to a mark and the others keep their numbers.
-/

namespace Chip8.Terminal.View

variable {a b : UInt16} {i j : Nat} {text : String}

/-! ## The line of a call -/

def callNumber (i : Nat) : List Char := (Nat.toDigits 10 i).leftpad 2 '0'

theorem ofDigitChars_callNumber (i : Nat) : Nat.ofDigitChars 10 (callNumber i) 0 = i := by
  rw [callNumber, List.leftpad, Nat.ofDigitChars_append, Nat.ofDigitChars_replicate_zero,
    Nat.mul_zero]
  exact Nat.ofDigitChars_toDigits (by decide) (by decide)

theorem callNumber_ne_nil (i : Nat) : callNumber i ≠ [] := by
  simp [callNumber, List.leftpad]

theorem isDigit_of_mem_callNumber {c : Char} (hc : c ∈ callNumber i) : c.isDigit = true := by
  rcases List.mem_append.1 hc with hzero | hdigit
  · rw [List.eq_of_mem_replicate hzero]
    rfl
  · exact Nat.isDigit_of_mem_toDigits (by decide) (by decide) hdigit

theorem toList_stackLine (a : UInt16) (i : Nat) :
    (stackLine a i).toList = callNumber i ++ (':' :: ' ' :: (hex 3 a.toNat).toList) := by
  simp only [stackLine, String.toList_append, String.toList_ofList, List.append_assoc, callNumber]
  rfl

theorem stackLine_parts (a : UInt16) (i : Nat) :
    (stackLine a i).toList.takeWhile Char.isDigit = callNumber i ∧
      (stackLine a i).toList.dropWhile Char.isDigit = ':' :: ' ' :: (hex 3 a.toNat).toList := by
  rw [toList_stackLine]
  apply Number.Numeral.span_digits fun c => isDigit_of_mem_callNumber
  rintro c ⟨⟩
  rfl

/-- How many digits an address is shown with. -/
def addressWidth (a : UInt16) : Nat := if a.toNat < 0x1000 then 3 else 4

theorem toNat_lt_pow_addressWidth (a : UInt16) : a.toNat < 16 ^ addressWidth a := by
  unfold addressWidth
  split
  · assumption
  · exact a.toNat_lt

theorem toList_hex_address (a : UInt16) :
    (hex 3 a.toNat).toList = hexDigits (addressWidth a) a.toNat := by
  unfold addressWidth
  split
  · next h => exact toList_hex 2 h
  · next h =>
    rw [hex_eq_hex (by decide : 3 ≤ 3 + 1) (by decide) (Nat.le_of_not_lt h)]
    exact toList_hex 3 a.toNat_lt

theorem hex_address_inj (h : (hex 3 a.toNat).toList = (hex 3 b.toNat).toList) : a = b := by
  rw [toList_hex_address, toList_hex_address] at h
  -- Texts of one length have digits of one width, and those determine the number.
  have hwidth : addressWidth a = addressWidth b := by simpa using congrArg List.length h
  rw [hwidth] at h
  have ha := toNat_lt_pow_addressWidth a
  rw [hwidth] at ha
  exact UInt16.toNat_inj.1 ((hexDigits_inj ha (toNat_lt_pow_addressWidth b)).1 h)

/-- Both the number and the address can be read off a line. -/
theorem stackLine_inj : stackLine a i = stackLine b j ↔ a = b ∧ i = j := by
  constructor
  · intro h
    obtain ⟨hnumber, haddress⟩ := stackLine_parts a i
    obtain ⟨hnumber', haddress'⟩ := stackLine_parts b j
    rw [h, hnumber'] at hnumber
    rw [h, haddress'] at haddress
    constructor
    · apply hex_address_inj
      simpa using haddress.symm
    · rw [← ofDigitChars_callNumber i, ← hnumber, ofDigitChars_callNumber]
  · rintro ⟨rfl, rfl⟩
    rfl

theorem stackLine_ne (h : text.toList.takeWhile Char.isDigit = []) : stackLine a i ≠ text := by
  rintro rfl
  rw [(stackLine_parts a i).1] at h
  exact callNumber_ne_nil i h

/-! ## The lines of a stack -/

/-- Line `k` is that of call number `first + k`, as far as there are calls. -/
def ListsCalls (stack : List UInt16) (first : Nat) (lines : List String) : Prop :=
  ∀ k, lines[k]? = stack[first + k]?.map (stackLine · (first + k))

namespace ListsCalls

variable {stack : List UInt16} {first : Nat} {lines : List String}

theorem length_eq (h : ListsCalls stack first lines) : lines.length = stack.length - first := by
  have hend : ∀ k, lines.length ≤ k ↔ stack.length ≤ first + k := by
    intro k
    rw [← List.getElem?_eq_none_iff, h k, Option.map_eq_none_iff, List.getElem?_eq_none_iff]
  have hlines := (hend lines.length).1 le_rfl
  have hcalls := (hend (stack.length - first)).2 (by omega)
  omega

theorem drop (h : ListsCalls stack first lines) (n : Nat) :
    ListsCalls stack (first + n) (lines.drop n) := by
  intro k
  rw [List.getElem?_drop, h, Nat.add_assoc]

theorem getLast? (h : ListsCalls stack first lines) (hfirst : first < stack.length) :
    ∃ a, stack[stack.length - 1]? = some a ∧
      lines.getLast? = some (stackLine a (stack.length - 1)) := by
  have hlast : stack[stack.length - 1]? = some stack[stack.length - 1] :=
    List.getElem?_eq_getElem (by omega)
  refine ⟨_, hlast, ?_⟩
  rw [List.getLast?_eq_getElem?, h, h.length_eq,
    show first + (stack.length - first - 1) = stack.length - 1 by omega, hlast, Option.map_some]

/-- A call has a line exactly if it is not older than the first one listed. -/
theorem stackLine_mem_iff (h : ListsCalls stack first lines) :
    stackLine a i ∈ lines ↔ stack[i]? = some a ∧ first ≤ i := by
  rw [List.mem_iff_getElem?]
  constructor
  · rintro ⟨k, hk⟩
    rw [h, Option.map_eq_some_iff] at hk
    obtain ⟨b, hb, hline⟩ := hk
    obtain ⟨rfl, rfl⟩ := stackLine_inj.1 hline
    exact ⟨hb, Nat.le_add_right first k⟩
  · rintro ⟨ha, hi⟩
    refine ⟨i - first, ?_⟩
    rw [h, Nat.add_sub_cancel' hi, ha, Option.map_some]

end ListsCalls

theorem listsCalls_zipIdx (stack : List UInt16) :
    ListsCalls stack 0 (stack.zipIdx.map fun (a, i) => stackLine a i) := by
  intro k
  simp [List.getElem?_zipIdx, Function.comp_def]

/-! ## As many as fit -/

section Fit

variable {stack : List UInt16} {height : Nat}

theorem stackLines_nil (height : Nat) : stackLines [] height = ["Empty"] := by
  simp [stackLines]

theorem stackLines_of_le (hsome : 1 ≤ stack.length) (h : stack.length ≤ max (height - 2) 1) :
    ListsCalls stack 0 (stackLines stack height) := by
  have hne : stack ≠ [] := List.ne_nil_of_length_pos hsome
  simp only [stackLines, if_neg hne, List.length_map, List.length_zipIdx, if_neg h.not_gt]
  exact listsCalls_zipIdx stack

/-- The mark takes one of the lines. -/
theorem stackLines_of_lt (h : max (height - 2) 1 < stack.length) :
    ∃ newest, stackLines stack height = "..." :: newest ∧
      ListsCalls stack (stack.length - (max (height - 2) 1 - 1)) newest := by
  have hne : stack ≠ [] := List.ne_nil_of_length_pos (by omega)
  simp only [stackLines, if_neg hne, List.length_map, List.length_zipIdx, if_pos h]
  refine ⟨_, rfl, ?_⟩
  have hdrop := (listsCalls_zipIdx stack).drop (stack.length - (max (height - 2) 1 - 1))
  rwa [Nat.zero_add] at hdrop

theorem length_stackLines (stack : List UInt16) (height : Nat) :
    (stackLines stack height).length = max (min stack.length (max (height - 2) 1)) 1 := by
  rcases stack.length.eq_zero_or_pos with hnone | hsome
  · rw [List.length_eq_zero_iff.1 hnone, stackLines_nil]
    simp
  · rcases le_or_gt stack.length (max (height - 2) 1) with hall | hcut
    · rw [(stackLines_of_le hsome hall).length_eq]
      omega
    · obtain ⟨newest, hlines, hnewest⟩ := stackLines_of_lt hcut
      rw [hlines, List.length_cons, hnewest.length_eq]
      omega

theorem getLast?_stackLines (hsome : 1 ≤ stack.length) (hroom : 2 ≤ max (height - 2) 1) :
    ∃ a, stack[stack.length - 1]? = some a ∧
      (stackLines stack height).getLast? = some (stackLine a (stack.length - 1)) := by
  rcases le_or_gt stack.length (max (height - 2) 1) with hall | hcut
  · exact (stackLines_of_le hsome hall).getLast? hsome
  · obtain ⟨newest, hlines, hnewest⟩ := stackLines_of_lt hcut
    obtain ⟨a, ha, hlast⟩ := hnewest.getLast? (by omega)
    refine ⟨a, ha, ?_⟩
    rw [hlines, List.getLast?_cons, hlast, Option.getD_some]

/-- Whatever else stands in the panel is not taken for a call. -/
theorem stackLine_mem_stackLines_iff : stackLine a i ∈ stackLines stack height ↔
    stack[i]? = some a ∧
      (stack.length ≤ max (height - 2) 1 ∨ stack.length - (max (height - 2) 1 - 1) ≤ i) := by
  rcases stack.length.eq_zero_or_pos with hnone | hsome
  · have hempty : stackLine a i ≠ "Empty" := stackLine_ne (by decide)
    simp [List.length_eq_zero_iff.1 hnone, stackLines_nil, hempty]
  · rcases le_or_gt stack.length (max (height - 2) 1) with hall | hcut
    · rw [(stackLines_of_le hsome hall).stackLine_mem_iff]
      simp [hall]
    · have hmark : stackLine a i ≠ "..." := stackLine_ne (by decide)
      obtain ⟨newest, hlines, hnewest⟩ := stackLines_of_lt hcut
      rw [hlines, List.mem_cons, or_iff_right hmark, hnewest.stackLine_mem_iff,
        or_iff_right hcut.not_ge]

end Fit

/-- **The newest calls.** A panel with room for `most` lines says that there is no call, lists all
calls, or puts a mark before the newest ones. Each call that has a line has it under its number in
the whole stack and under no other, and the newest call stands last. -/
theorem stackLines_keep_newest (stack : List UInt16) (height : Nat) :
    let n := stack.length
    let most := max (height - 2) 1
    let lines := stackLines stack height
    (1 ≤ lines.length ∧ lines.length ≤ most) ∧
    (n = 0 → lines = ["Empty"]) ∧
    (1 ≤ n → n ≤ most → lines.length = n ∧ ListsCalls stack 0 lines) ∧
    (most < n → lines.length = most ∧
      ∃ newest, lines = "..." :: newest ∧ newest.length = most - 1 ∧
        ListsCalls stack (n - (most - 1)) newest) ∧
    (2 ≤ most → 1 ≤ n → ∃ a, stack[n - 1]? = some a ∧
      lines.getLast? = some (stackLine a (n - 1))) ∧
    ∀ i a, stackLine a i ∈ lines ↔ stack[i]? = some a ∧ (n ≤ most ∨ n - (most - 1) ≤ i) := by
  intro n most lines
  have hlength : lines.length = max (min n most) 1 := length_stackLines stack height
  refine ⟨by omega, ?_, ?_, ?_, ?_, ?_⟩
  · intro hnone
    rw [← stackLines_nil height, ← List.length_eq_zero_iff.1 hnone]
  · intro hsome hall
    exact ⟨by omega, stackLines_of_le hsome hall⟩
  · intro hcut
    obtain ⟨newest, hlines, hnewest⟩ := stackLines_of_lt hcut
    have hroom := hnewest.length_eq
    exact ⟨by omega, newest, hlines, by omega, hnewest⟩
  · intro hroom hsome
    exact getLast?_stackLines hsome hroom
  · intro i a
    exact stackLine_mem_stackLines_iff

/-- Two lines for three calls. -/
theorem stackLines_keep_newest_third :
    stackLines [0x200, 0x2F4, 0xFFE] 4 = ["...", "02: FFE"] := by
  obtain ⟨-, -, -, hcut, -⟩ := stackLines_keep_newest [0x200, 0x2F4, 0xFFE] 4
  obtain ⟨-, newest, hlines, hlength, hcalls⟩ := hcut (by decide)
  obtain ⟨line, rfl⟩ := List.length_eq_one_iff.1 hlength
  have hline : some line = some (stackLine 0xFFE 2) := hcalls 0
  rw [hlines, Option.some.inj hline]
  decide

end Chip8.Terminal.View
