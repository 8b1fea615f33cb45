import Chip8.Proofs.Bounds
import Chip8.Proofs.History
import Chip8.Proofs.Images
import Chip8.Proofs.Pictures
import Chip8.Terminal.Session

/-!
# What the register panel shows

The lines of the register panel have fifteen cells. Each line is filled by numbers of a known width,
but for the first one: PC may have a fourth digit there. Then the last digit of I is cut off, and
nothing else.
-/

namespace Chip8

/-! ## Hexadecimal digits -/

def hexDigit (n : Nat) : Char := (Nat.digitChar n).toUpper

/-- The last `width` digits. -/
def hexDigits : Nat → Nat → List Char
  | 0, _ => []
  | width + 1, n => hexDigits width (n / 16) ++ [hexDigit (n % 16)]

theorem hexDigit_inj {a b : Nat} (ha : a < 16) (hb : b < 16) (h : hexDigit a = hexDigit b) :
    a = b := by
  have hall : ∀ a b : Fin 16, hexDigit a = hexDigit b → a = b := by decide
  exact congrArg Fin.val (hall ⟨a, ha⟩ ⟨b, hb⟩ h)

theorem hexDigit_ne_space {a : Nat} (ha : a < 16) : hexDigit a ≠ ' ' := by
  have hall : ∀ a : Fin 16, hexDigit a ≠ ' ' := by decide
  exact hall ⟨a, ha⟩

@[simp]
theorem length_hexDigits (width n : Nat) : (hexDigits width n).length = width := by
  induction width generalizing n with
  | zero => rfl
  | succ width ih => simp [hexDigits, ih]

theorem hexDigits_inj {width a b : Nat} (ha : a < 16 ^ width) (hb : b < 16 ^ width) :
    hexDigits width a = hexDigits width b ↔ a = b := by
  refine ⟨?_, congrArg _⟩
  induction width generalizing a b with
  | zero => omega
  | succ width ih =>
    intro h
    obtain ⟨hhigh, hlow⟩ := List.append_inj' h rfl
    have hhigh := ih (by omega) (by omega) hhigh
    have hlow := hexDigit_inj (Nat.mod_lt _ (by decide)) (Nat.mod_lt _ (by decide))
      (List.singleton_inj.1 hlow)
    omega

theorem leftpad_concat {α : Type} (xs : List α) (width : Nat) (a b : α) :
    (xs ++ [b]).leftpad (width + 1) a = xs.leftpad width a ++ [b] := by
  simp [List.leftpad]

theorem map_toUpper_toDigits (n : Nat) : (Nat.toDigits 16 n).map Char.toUpper =
    (if n < 16 then [] else (Nat.toDigits 16 (n / 16)).map Char.toUpper) ++
      [hexDigit (n % 16)] := by
  rw [Nat.toDigits_eq_if (by decide)]
  split
  · next h => simp [hexDigit, Nat.mod_eq_of_lt h]
  · simp [hexDigit]

theorem hexDigits_zero (width : Nat) : hexDigits width 0 = List.replicate width '0' := by
  induction width with
  | zero => rfl
  | succ width ih =>
    rw [hexDigits, ih, List.replicate_succ']
    rfl

/-- A number that fits is shown with exactly the digits asked for. -/
theorem toList_hex (width : Nat) {n : Nat} (h : n < 16 ^ (width + 1)) :
    (hex (width + 1) n).toList = hexDigits (width + 1) n := by
  rw [hex, String.toList_ofList]
  induction width generalizing n with
  | zero =>
    have hn : n < 16 := h
    rw [map_toUpper_toDigits, if_pos hn]
    rfl
  | succ width ih =>
    rw [map_toUpper_toDigits, leftpad_concat, hexDigits]
    split
    · next hn => rw [Nat.div_eq_of_lt hn, hexDigits_zero, List.leftpad, List.append_nil]; rfl
    · rw [ih (by omega)]

theorem hex_eq_hex {width more n : Nat} (hmore : width ≤ more + 1) (hpos : 0 < more)
    (h : 16 ^ more ≤ n) : hex width n = hex (more + 1) n := by
  have hlong : more < (Nat.toDigits 16 n).length := by
    have hiff := Nat.length_toDigits_le_iff (n := n) (by decide : 1 < 16) hpos
    omega
  have hwidth : width - (Nat.toDigits 16 n).length = 0 := by omega
  have hwider : more + 1 - (Nat.toDigits 16 n).length = 0 := by omega
  simp only [hex, List.leftpad, List.length_map, hwidth, hwider]

namespace Terminal

/-! ## The cells of a panel -/

theorem Panel.cell?_congr (p q : Panel) (harea : q.area = p.area) (htitle : q.title = p.title)
    (hground : q.ground = p.ground) {x y : Nat}
    (hinner : p.area.Inside x y → p.inner (x - p.area.x - 1) (y - p.area.y - 1) =
      q.inner (x - p.area.x - 1) (y - p.area.y - 1)) :
    p.cell? x y = q.cell? x y := by
  by_cases hinside : p.area.Inside x y
  · rw [cell?_of_inside hinside, cell?_of_inside (harea ▸ hinside), hinner hinside, harea]
  · -- An outline hides the text.
    by_cases hcontains : p.area.contains x y = true
    · obtain ⟨c, hc⟩ := Option.ne_none_iff_exists'.1
        ((Area.outline?_eq_none_iff hcontains).not.2 hinside)
      simp only [cell?, title?, harea, htitle, hground, hc]
    · rw [cell?, cell?, harea, if_neg hcontains, if_neg hcontains]

namespace View

variable {κ : Type} {width height x y : Nat}

theorem cell_eq_registers {m : Machine κ} (hwidth : 83 ≤ width) (hheight : 34 ≤ height)
    (h : (registersPanel m width).area.contains x y = true) :
    some ((picture m width height).cell x y) = (registersPanel m width).cell? x y := by
  have hx : width - sideWidth ≤ x := (Area.contains_iff.1 h).1
  have hdisplay : (displayPanel m.screen width height).area.contains x y = false := by
    rw [Bool.eq_false_iff]
    intro hcontains
    have hright : x < 0 + (width - sideWidth) := (Area.contains_iff.1 hcontains).2.1
    omega
  obtain ⟨cell, hcell⟩ := Option.isSome_iff_exists.1 (Panel.isSome_cell? h)
  simp [picture_of_le m hwidth hheight, Picture.cell, Panel.cell?_eq_none hdisplay, hcell]

/-- The character in a cell of the register panel. Cells behind the end of a line are blank. -/
def glyphAt (m : Machine κ) (column row : Nat) : Char :=
  ((registerLines m)[row]?.bind (·.toList[column]?)).getD ' '

theorem inner_registersPanel (m : Machine κ) (column row : Nat) :
    (registersPanel m width).inner column row = ⟨glyphAt m column row, .plain⟩ := by
  have htext : (registersPanel m width).text? column row =
      (registerLines m)[row]?.bind (·.toList[column]?) := by
    simp [Panel.text?, registersPanel, Panel.indent, Option.bind_map]
  rw [Panel.inner, htext, glyphAt]
  cases (registerLines m)[row]?.bind (·.toList[column]?) <;> rfl

theorem cell_registers (m : Machine κ) (hwidth : 83 ≤ width) (hheight : 34 ≤ height)
    {column row : Nat} (hcolumn : column < 15) (hrow : row < 11) :
    (picture m width height).cell (width - 17 + 1 + column) (1 + row) =
      ⟨glyphAt m column row, .plain⟩ := by
  have hinside : (registersPanel m width).area.Inside (width - 17 + 1 + column) (1 + row) := by
    constructor <;> simp only [registersPanel, sideWidth, registersHeight] <;> omega
  have hx : width - 17 + 1 + column - (width - 17) - 1 = column := by omega
  have hy : 1 + row - 0 - 1 = row := by omega
  apply Option.some.inj
  rw [cell_eq_registers hwidth hheight hinside.contains_eq_true, Panel.cell?_of_inside hinside,
    inner_registersPanel,
    show (registersPanel m width).area = ⟨width - 17, 0, 17, registersHeight⟩ from rfl, hx, hy]

/-- The register panels of two machines look alike. -/
def SameRegisterPanel (m m' : Machine κ) (width height : Nat) : Prop :=
  ∀ x y, (registersPanel m width).area.contains x y = true →
    (picture m width height).cell x y = (picture m' width height).cell x y

theorem sameRegisterPanel_iff {m m' : Machine κ} (hwidth : 83 ≤ width) (hheight : 34 ≤ height) :
    SameRegisterPanel m m' width height ↔
      ∀ row < 11, ∀ column < 15, glyphAt m column row = glyphAt m' column row := by
  constructor
  · intro hsame row hrow column hcolumn
    have hcontains : (registersPanel m width).area.contains (width - 17 + 1 + column) (1 + row) =
        true := by
      rw [Area.contains_iff]
      simp only [registersPanel, sideWidth, registersHeight]
      omega
    have hcell := hsame _ _ hcontains
    rw [cell_registers m hwidth hheight hcolumn hrow,
      cell_registers m' hwidth hheight hcolumn hrow] at hcell
    exact congrArg Cell.glyph hcell
  · intro hglyphs x y hcontains
    apply Option.some.inj
    rw [cell_eq_registers hwidth hheight hcontains,
      cell_eq_registers (m := m') hwidth hheight hcontains]
    apply Panel.cell?_congr (registersPanel m width) (registersPanel m' width) rfl rfl rfl
    rintro ⟨hleft, hright, htop, hbottom⟩
    simp only [registersPanel, sideWidth, registersHeight] at hleft hright htop hbottom
    rw [inner_registersPanel, inner_registersPanel]
    simp only [registersPanel, sideWidth]
    rw [hglyphs _ (by omega) _ (by omega)]

/-! ## The lines -/

/-- Two numbers with a given number of digits, each behind its label. -/
def numbers (label : List Char) (width a : Nat) (label' : List Char) (width' b : Nat) : List Char :=
  label ++ (hexDigits width a ++ (label' ++ hexDigits width' b))

theorem numbers_inj {label label' : List Char} {width width' a b a' b' : Nat}
    (ha : a < 16 ^ width) (hb : b < 16 ^ width') (ha' : a' < 16 ^ width) (hb' : b' < 16 ^ width') :
    numbers label width a label' width' b = numbers label width a' label' width' b' ↔
      a = a' ∧ b = b' := by
  constructor
  · intro h
    obtain ⟨hfirst, hsecond⟩ := List.append_inj (List.append_cancel_left h) (by simp)
    have hsecond := List.append_cancel_left hsecond
    exact ⟨(hexDigits_inj ha ha').1 hfirst, (hexDigits_inj hb hb').1 hsecond⟩
  · rintro ⟨rfl, rfl⟩
    rfl

theorem numbers_ne_of_longer {label label' label'' : List Char}
    {width width' width'' a b a' b' : Nat} :
    numbers label width a (' ' :: label') width' b ≠
      numbers label (width + 1) a' label'' width'' b' := by
  intro h
  have h := List.append_cancel_left h
  rw [hexDigits, List.append_assoc] at h
  obtain ⟨-, hrest⟩ := List.append_inj h (by simp)
  exact hexDigit_ne_space (Nat.mod_lt a' (by decide)) (List.cons.inj hrest).1.symm

theorem length_numbers (label : List Char) (width a : Nat) (label' : List Char) (width' b : Nat) :
    (numbers label width a label' width' b).length =
      label.length + (width + (label'.length + width')) := by
  simp [numbers]

theorem forall_glyph_iff {a b : List Char} (ha : 15 ≤ a.length) (hb : 15 ≤ b.length) :
    (∀ column < 15, a[column]?.getD ' ' = b[column]?.getD ' ') ↔ a.take 15 = b.take 15 := by
  constructor
  · intro h
    apply List.ext_getElem (by simp [ha, hb])
    intro i hi _
    have hi : i < 15 := by simpa [ha] using hi
    have hglyph := h i hi
    rw [List.getElem?_eq_getElem (by omega), List.getElem?_eq_getElem (by omega)] at hglyph
    simpa using hglyph
  · intro h column hcolumn
    rw [← List.getElem?_take_of_lt hcolumn, h, List.getElem?_take_of_lt hcolumn]

/-- The line with PC and I. -/
def addressLine (pc i : Nat) : List Char := ("PC: " ++ hex 3 pc ++ "  I: " ++ hex 3 i).toList

theorem addressLine_of_lt {pc i : Nat} (hpc : pc < 0x1000) (hi : i < 0x1000) :
    addressLine pc i = numbers "PC: ".toList 3 pc "  I: ".toList 3 i := by
  simp only [addressLine, String.toList_append, toList_hex 2 hpc, toList_hex 2 hi, numbers,
    List.append_assoc]

theorem addressLine_of_ge {pc i : Nat} (hpc : 0x1000 ≤ pc) (hlt : pc < 0x10000) (hi : i < 0x1000) :
    addressLine pc i =
      numbers "PC: ".toList 4 pc "  I: ".toList 2 (i / 16) ++ [hexDigit (i % 16)] := by
  simp only [addressLine, hex_eq_hex (by decide : 3 ≤ 3 + 1) (by decide) hpc,
    String.toList_append, toList_hex 3 hlt, toList_hex 2 hi, numbers, List.append_assoc]
  rfl

theorem take_addressLine_of_lt {pc i : Nat} (hpc : pc < 0x1000) (hi : i < 0x1000) :
    (addressLine pc i).take 15 = numbers "PC: ".toList 3 pc "  I: ".toList 3 i := by
  rw [addressLine_of_lt hpc hi]
  exact List.take_of_length_le (length_numbers ..).le

theorem take_addressLine_of_ge {pc i : Nat} (hpc : 0x1000 ≤ pc) (hlt : pc < 0x10000)
    (hi : i < 0x1000) :
    (addressLine pc i).take 15 = numbers "PC: ".toList 4 pc "  I: ".toList 2 (i / 16) := by
  rw [addressLine_of_ge hpc hlt hi]
  exact List.take_left' (length_numbers ..)

theorem length_addressLine {pc i : Nat} (hpc : pc < 0x10000) (hi : i < 0x1000) :
    (addressLine pc i).length = if pc < 0x1000 then 15 else 16 := by
  split
  · next h =>
    rw [addressLine_of_lt h hi]
    exact length_numbers ..
  · next h =>
    rw [addressLine_of_ge (Nat.le_of_not_lt h) hpc hi, List.length_append, length_numbers]
    rfl

/-- If PC has four digits, the last one of I is out of sight. -/
theorem take_addressLine_eq_iff {pc i pc' i' : Nat} (hpc : pc < 0x10000) (hi : i < 0x1000)
    (hpc' : pc' < 0x10000) (hi' : i' < 0x1000) :
    (addressLine pc i).take 15 = (addressLine pc' i').take 15 ↔
      pc = pc' ∧ (i = i' ∨ 0x1000 ≤ pc ∧ i / 16 = i' / 16) := by
  obtain hlt | hge := Nat.lt_or_ge pc 0x1000 <;> obtain hlt' | hge' := Nat.lt_or_ge pc' 0x1000
  · rw [take_addressLine_of_lt hlt hi, take_addressLine_of_lt hlt' hi', numbers_inj hlt hi hlt' hi']
    omega
  · rw [take_addressLine_of_lt hlt hi, take_addressLine_of_ge hge' hpc' hi']
    exact iff_of_false numbers_ne_of_longer (by omega)
  · rw [take_addressLine_of_ge hge hpc hi, take_addressLine_of_lt hlt' hi']
    exact iff_of_false numbers_ne_of_longer.symm (by omega)
  · rw [take_addressLine_of_ge hge hpc hi, take_addressLine_of_ge hge' hpc' hi',
      numbers_inj hpc (by omega) hpc' (by omega)]
    omega

theorem timerLine_eq (delay sound : UInt8) :
    ("DT: " ++ hex 2 delay.toNat ++ "   ST: " ++ hex 2 sound.toNat).toList =
      numbers "DT: ".toList 2 delay.toNat "   ST: ".toList 2 sound.toNat := by
  simp only [String.toList_append, toList_hex 1 delay.toNat_lt, toList_hex 1 sound.toNat_lt,
    numbers, List.append_assoc]

theorem registerPair_eq (v : Registers) (x : Nibble) :
    (registerPair v x).toList =
      'V' :: hexDigit x :: ':' :: ' ' :: hexDigits 2 (v.get x).toNat := by
  have hx : hexDigits 1 x = [hexDigit x] := by simp [hexDigits, Nat.mod_eq_of_lt x.isLt]
  simp only [registerPair, String.toList_append, toList_hex 0 x.isLt,
    toList_hex 1 (v.get x).toNat_lt, hx]
  rfl

theorem registerLine_eq (v : Registers) (x y : Nibble) :
    (registerPair v x ++ "   " ++ registerPair v y).toList =
      numbers ['V', hexDigit x, ':', ' '] 2 (v.get x).toNat
        [' ', ' ', ' ', 'V', hexDigit y, ':', ' '] 2 (v.get y).toNat := by
  simp only [String.toList_append, registerPair_eq, numbers, List.append_assoc]
  rfl

theorem forall_glyph_numbers_iff {label label' : List Char}
    (hlabels : label.length + label'.length = 11) (a b a' b' : UInt8) :
    (∀ column < 15, (numbers label 2 a.toNat label' 2 b.toNat)[column]?.getD ' ' =
      (numbers label 2 a'.toNat label' 2 b'.toNat)[column]?.getD ' ') ↔ a = a' ∧ b = b' := by
  have hlength : ∀ a b, (numbers label 2 a label' 2 b).length = 15 := by
    intro a b
    rw [length_numbers]
    omega
  rw [forall_glyph_iff (hlength ..).ge (hlength ..).ge, List.take_of_length_le (hlength ..).le,
    List.take_of_length_le (hlength ..).le,
    numbers_inj a.toNat_lt b.toNat_lt a'.toNat_lt b'.toNat_lt, UInt8.toNat_inj, UInt8.toNat_inj]

theorem registers_eq_iff (v v' : Registers) :
    (∀ x < 8, v.get (Fin.ofNat 16 x) = v'.get (Fin.ofNat 16 x) ∧
      v.get (Fin.ofNat 16 (x + 8)) = v'.get (Fin.ofNat 16 (x + 8))) ↔ v = v' := by
  constructor
  · intro h
    apply Registers.ext
    apply Vector.ext
    intro i hi
    obtain hlow | hhigh := Nat.lt_or_ge i 8
    · have hget := (h i hlow).1
      rwa [show Fin.ofNat 16 i = ⟨i, hi⟩ from Fin.ext (Nat.mod_eq_of_lt hi)] at hget
    · have hget := (h (i - 8) (by omega)).2
      rwa [Nat.sub_add_cancel hhigh,
        show Fin.ofNat 16 i = ⟨i, hi⟩ from Fin.ext (Nat.mod_eq_of_lt hi)] at hget
  · rintro rfl x -
    exact ⟨rfl, rfl⟩

theorem glyphAt_blank (m : Machine κ) (column : Nat) : glyphAt m column 2 = ' ' := by
  have hline : (registerLines m)[2]? = some "" := rfl
  simp [glyphAt, hline]

theorem forall_row_iff (m m' : Machine κ) :
    (∀ row < 11, ∀ column < 15, glyphAt m column row = glyphAt m' column row) ↔
      (∀ column < 15, glyphAt m column 0 = glyphAt m' column 0) ∧
      (∀ column < 15, glyphAt m column 1 = glyphAt m' column 1) ∧
      ∀ x < 8, ∀ column < 15, glyphAt m column (x + 3) = glyphAt m' column (x + 3) := by
  constructor
  · intro h
    exact ⟨h 0 (by decide), h 1 (by decide), fun x hx => h (x + 3) (by omega)⟩
  · rintro ⟨haddresses, htimers, hregisters⟩ row hrow
    match row with
    | 0 => exact haddresses
    | 1 => exact htimers
    | 2 =>
      intro column _
      rw [glyphAt_blank, glyphAt_blank]
    | x + 3 => exact hregisters x (by omega)

theorem glyphAt_register (m : Machine κ) {x : Nat} (hx : x < 8) (column : Nat) :
    glyphAt m column (x + 3) = (registerPair m.registers (Fin.ofNat 16 x) ++ "   " ++
      registerPair m.registers (Fin.ofNat 16 (x + 8))).toList[column]?.getD ' ' := by
  have hline : (registerLines m)[x + 3]? = some (registerPair m.registers (Fin.ofNat 16 x) ++
      "   " ++ registerPair m.registers (Fin.ofNat 16 (x + 8))) := by
    simp [registerLines, hx]
  rw [glyphAt, hline]
  rfl

/-- Panels that look alike agree on all that they show. -/
theorem sameRegisterPanel_iff_eq {m m' : Machine κ} (hwidth : 83 ≤ width) (hheight : 34 ≤ height) :
    SameRegisterPanel m m' width height ↔
      (m.pc = m'.pc ∧
        (m.index = m'.index ∨ 0x1000 ≤ m.pc.toNat ∧ m.index.val / 16 = m'.index.val / 16)) ∧
      (m.delayNow = m'.delayNow ∧ m.soundNow = m'.soundNow) ∧ m.registers = m'.registers := by
  have haddresses : (∀ column < 15, glyphAt m column 0 = glyphAt m' column 0) ↔ m.pc = m'.pc ∧
      (m.index = m'.index ∨ 0x1000 ≤ m.pc.toNat ∧ m.index.val / 16 = m'.index.val / 16) := by
    change (∀ column < 15, (addressLine m.pc.toNat m.index)[column]?.getD ' ' =
      (addressLine m'.pc.toNat m'.index)[column]?.getD ' ') ↔ _
    have hlength : ∀ m : Machine κ, 15 ≤ (addressLine m.pc.toNat m.index).length := by
      intro m
      rw [length_addressLine m.pc.toNat_lt m.index.isLt]
      split <;> decide
    rw [forall_glyph_iff (hlength m) (hlength m'),
      take_addressLine_eq_iff m.pc.toNat_lt m.index.isLt m'.pc.toNat_lt m'.index.isLt,
      UInt16.toNat_inj, ← Fin.ext_iff]
  have htimers : (∀ column < 15, glyphAt m column 1 = glyphAt m' column 1) ↔
      m.delayNow = m'.delayNow ∧ m.soundNow = m'.soundNow := by
    change (∀ column < 15, ("DT: " ++ hex 2 m.delayNow.toNat ++ "   ST: " ++
      hex 2 m.soundNow.toNat).toList[column]?.getD ' ' = ("DT: " ++ hex 2 m'.delayNow.toNat ++
      "   ST: " ++ hex 2 m'.soundNow.toNat).toList[column]?.getD ' ') ↔ _
    rw [timerLine_eq, timerLine_eq]
    exact forall_glyph_numbers_iff rfl ..
  have hregisters : ∀ x < 8, (∀ column < 15, glyphAt m column (x + 3) = glyphAt m' column (x + 3)) ↔
      m.registers.get (Fin.ofNat 16 x) = m'.registers.get (Fin.ofNat 16 x) ∧
        m.registers.get (Fin.ofNat 16 (x + 8)) = m'.registers.get (Fin.ofNat 16 (x + 8)) := by
    intro x hx
    simp only [glyphAt_register _ hx, registerLine_eq]
    exact forall_glyph_numbers_iff rfl ..
  rw [sameRegisterPanel_iff hwidth hheight, forall_row_iff, haddresses, htimers,
    ← registers_eq_iff]
  exact and_congr_right fun _ => and_congr_right fun _ => forall₂_congr hregisters

theorem lines_fit_iff (m : Machine κ) :
    (∀ line ∈ registerLines m, line.length ≤ 15) ↔ m.pc.toNat ≤ 0xFFF := by
  have hfirst : ("PC: " ++ hex 3 m.pc.toNat ++ "  I: " ++ hex 3 m.index.val).length =
      if m.pc.toNat < 0x1000 then 15 else 16 := by
    rw [← String.length_toList]
    exact length_addressLine m.pc.toNat_lt m.index.isLt
  have htimers : ("DT: " ++ hex 2 m.delayNow.toNat ++ "   ST: " ++
      hex 2 m.soundNow.toNat).length ≤ 15 := by
    rw [← String.length_toList, timerLine_eq, length_numbers]
    decide
  have hregisters : ∀ x y, (registerPair m.registers x ++ "   " ++
      registerPair m.registers y).length ≤ 15 := by
    intro x y
    rw [← String.length_toList, registerLine_eq, length_numbers]
    rfl
  rw [registerLines]
  simp only [List.forall_mem_cons, List.forall_mem_map, hfirst]
  constructor
  · rintro ⟨hfits, -⟩
    split at hfits <;> omega
  · intro hpc
    exact ⟨by rw [if_pos (by omega)], htimers, by decide, fun x _ => hregisters ..⟩

end View

/-! ## Reachable machines -/

/-- A machine of a session, some steps after the start, at some moment and with some key held. -/
def Session.Reaches (m : Machine HeldKey) : Prop :=
  ∃ rom settings entropy first, Session.start rom settings entropy = .ok first ∧
    ∃ hosts host, m = (first.machine.run hosts).hosted host

theorem Session.inBounds_start {rom : List UInt8} {settings : Settings} {entropy : UInt64}
    {first : Session} (h : start rom settings entropy = .ok first) :
    first.machine.InBounds settings.stackLimit := by
  unfold start at h
  split at h
  · cases h
  · next fresh hnew =>
    have hfresh := Machine.inBounds_new settings {} entropy fresh.random fresh hnew
    have hload : (fresh.load rom).1.InBounds settings.stackLimit := hfresh.load rom
    split at h
    · cases h
    · next machine outcome _ hmachine =>
      cases h
      rwa [hmachine] at hload

theorem Session.Reaches.pc_le {m : Machine HeldKey} (h : Session.Reaches m) :
    m.pc.toNat ≤ 0x10FE := by
  obtain ⟨rom, settings, entropy, first, hstart, hosts, host, rfl⟩ := h
  exact ((Session.inBounds_start hstart).run hosts).2.1.pc_le

/-- **Registers in a picture.** The panel of a machine that a session reaches shows everything as
long as PC has three digits. From 0x1000 on the last digit of I is missing, and nothing else. -/
theorem View.register_panel_loses_digit {m m' : Machine HeldKey} (h : Session.Reaches m)
    (h' : Session.Reaches m') {width height : Nat} (hwidth : 83 ≤ width) (hheight : 34 ≤ height) :
    m.pc.toNat ≤ 0x10FE ∧ m'.pc.toNat ≤ 0x10FE ∧
    ((∀ line ∈ registerLines m, line.length ≤ 15) ↔ m.pc.toNat ≤ 0xFFF) ∧
    (SameRegisterPanel m m' width height ↔
      (m.pc = m'.pc ∧
        (m.index = m'.index ∨ 0x1000 ≤ m.pc.toNat ∧ m.index.val / 16 = m'.index.val / 16)) ∧
      (m.delayNow = m'.delayNow ∧ m.soundNow = m'.soundNow) ∧ m.registers = m'.registers) :=
  ⟨h.pc_le, h'.pc_le, lines_fit_iff m, sameRegisterPanel_iff_eq hwidth hheight⟩

/-- Sets I and V0, and jumps out of memory. -/
def leaving (low : UInt8) : List UInt8 := [0xA1, low, 0x60, 0xFF, 0xBF, 0xFF]

theorem step_leaving (m : Machine HeldKey) {low : UInt8} {op : Operation} {k : Nat} {b c : UInt8}
    (hmemory : m.memory = Memory.fresh.after (leaving low)) (hpc : m.pc.toNat = 0x200 + k)
    (hb : (leaving low)[k]? = some b) (hc : (leaving low)[k + 1]? = some c)
    (hcovers : op.Covers (.ofBytes b c)) : m.step = m.perform (.ofBytes b c) op := by
  rw [Machine.step_of_reads _ _ (Machine.reads_of_image hmemory (by simp [leaving]) hpc hb hc),
    Machine.execute_of_covers _ _ op hcovers]

theorem Session.start_leaving (low : UInt8) :
    ∃ first, start (leaving low) { seed := some 0 } 0 = .ok first ∧
      first.machine.memory = Memory.fresh.after (leaving low) ∧ first.machine.pc = 0x200 ∧
      first.machine.registers = .zero ∧
      first.machine.delay.target = none ∧ first.machine.sound.target = none := by
  have hfits : (leaving low).length ≤ 3584 := by simp [leaving]
  simp only [start, Machine.new?, Machine.timerPeriod?_standard, Option.map_some, Machine.load,
    Memory.load_eq_ite, if_pos hfits, Machine.attempt, Memory.after_of_le _ hfits]
  exact ⟨_, rfl, rfl, rfl, rfl, rfl, rfl⟩

theorem run_leaving {m : Machine HeldKey} {low : UInt8}
    (hcovers : Operation.setIndex.Covers (.ofBytes 0xA1 low))
    (hmemory : m.memory = Memory.fresh.after (leaving low)) (hpc : m.pc = 0x200)
    (hregisters : m.registers = .zero) (host : Chip8.Host HeldKey) :
    m.run [host, host, host] = { m.hosted host with
      index := .ofValue (Word.ofBytes 0xA1 low).nnn.toUInt32
      registers := Registers.zero.set 0 0xFF
      pc := 0x10FE } := by
  obtain ⟨m₁, hm₁⟩ : ∃ m₁, m₁ = { m.hosted host with
      index := .ofValue (Word.ofBytes 0xA1 low).nnn.toUInt32, pc := 0x202 } := ⟨_, rfl⟩
  obtain ⟨m₂, hm₂⟩ : ∃ m₂, m₂ = { m₁ with
      registers := Registers.zero.set 0 0xFF, pc := 0x204 } := ⟨_, rfl⟩
  have hfirst : (m.hosted host).step.1 = m₁ := by
    rw [step_leaving (m.hosted host) hmemory (k := 0) (by simp [hpc]) rfl rfl hcovers, hm₁]
    simp [Machine.perform, Machine.advance, Machine.hosted, hpc]
  have hsecond : (m₁.hosted host).step.1 = m₂ := by
    have hset : Registers.zero.set (Word.ofBytes 0x60 0xFF).x (Word.ofBytes 0x60 0xFF).nn =
        Registers.zero.set 0 0xFF := by decide
    rw [step_leaving (m₁.hosted host) (by rw [hm₁]; exact hmemory) (k := 2) (by rw [hm₁]; rfl) rfl
      rfl (show Operation.setByte.Covers 0x60FF from show Word.family 0x60FF = 6 by decide), hm₂]
    simp [Machine.perform, Machine.advance, Machine.assign, Machine.hosted, hm₁, hregisters, hset]
  have hthird : (m₂.hosted host).step.1 = { m₂ with pc := 0x10FE } := by
    have hjump : (Word.ofBytes 0xBF 0xFF).nnn + ((Registers.zero.set 0 0xFF).get 0).toUInt16 =
        0x10FE := by decide
    rw [step_leaving (m₂.hosted host) (by rw [hm₂, hm₁]; exact hmemory) (k := 4)
      (by rw [hm₂]; rfl) rfl rfl
      (show Operation.jumpOffset.Covers 0xBFFF from show Word.family 0xBFFF = 0xB by decide)]
    simp [Machine.perform, Machine.hosted, hm₂, hm₁, hjump]
  rw [Machine.run, hfirst, Machine.run, hsecond, Machine.run, hthird, Machine.run, hm₂, hm₁]

theorem Session.exists_leaving {low : UInt8}
    (hcovers : Operation.setIndex.Covers (.ofBytes 0xA1 low)) :
    ∃ m, Session.Reaches m ∧ m.pc = 0x10FE ∧
      m.index = .ofValue (Word.ofBytes 0xA1 low).nnn.toUInt32 ∧ m.delayNow = 0 ∧ m.soundNow = 0 ∧
      m.registers = Registers.zero.set 0 0xFF := by
  obtain ⟨first, hstart, hmemory, hpc, hregisters, hdelay, hsound⟩ := start_leaving low
  let host : Chip8.Host HeldKey := ⟨0, {}⟩
  refine ⟨_, ⟨_, _, _, first, hstart, [host, host, host], host, rfl⟩, ?_⟩
  rw [run_leaving hcovers hmemory hpc hregisters]
  simp [Machine.delayNow, Machine.soundNow, Machine.hosted, Timer.get, hdelay, hsound]

/-- Two programs that leave I at 0x123 and at 0x124 show the same, as if it were 0x12. -/
theorem View.register_panel_loses_digit_past_end :
    ∃ m m' : Machine HeldKey, Session.Reaches m ∧ Session.Reaches m' ∧ m.pc = 0x10FE ∧
      m.index = 0x123 ∧ m'.index = 0x124 ∧ (∃ line ∈ registerLines m, 15 < line.length) ∧
      SameRegisterPanel m m' 83 34 := by
  obtain ⟨m, hm, hpc, hindex, hdelay, hsound, hregisters⟩ := Session.exists_leaving
    (show Word.family (.ofBytes 0xA1 0x23) = 0xA by decide)
  obtain ⟨m', hm', hpc', hindex', hdelay', hsound', hregisters'⟩ := Session.exists_leaving
    (show Word.family (.ofBytes 0xA1 0x24) = 0xA by decide)
  rw [show Address.ofValue (Word.ofBytes 0xA1 0x23).nnn.toUInt32 = 0x123 by decide] at hindex
  rw [show Address.ofValue (Word.ofBytes 0xA1 0x24).nnn.toUInt32 = 0x124 by decide] at hindex'
  obtain ⟨-, -, hfits, hsame⟩ := View.register_panel_loses_digit hm hm' (by decide : 83 ≤ 83)
    (by decide : 34 ≤ 34)
  refine ⟨m, m', hm, hm', hpc, hindex, hindex', ?_, hsame.2 ?_⟩
  · have hlong : ¬ m.pc.toNat ≤ 0xFFF := by
      rw [hpc]
      decide
    simpa using hfits.not.2 hlong
  · rw [hpc, hpc', hindex, hindex', hdelay, hdelay', hsound, hsound', hregisters, hregisters']
    exact ⟨⟨rfl, .inr ⟨by decide, by decide⟩⟩, ⟨rfl, rfl⟩, rfl⟩

end Terminal

end Chip8
