import Chip8.Proofs.Drawings
import Chip8.Proofs.Run
import Chip8.Terminal.View

/-!
# Pictures of the screen

Within its outline a panel shows its lines and blanks. The display panel leaves room for all of the
screen, however wide the terminal is, and the panels beside it do not reach into it. So the picture
determines the screen.
-/

namespace Chip8.Terminal

/-! ## Panels -/

namespace Area

/-- Within the outline and not on it. -/
structure Inside (a : Area) (x y : Nat) : Prop where
  left : a.x < x
  right : x + 1 < a.x + a.width
  top : a.y < y
  bottom : y + 1 < a.y + a.height

variable {a : Area} {x y : Nat}

theorem contains_iff : a.contains x y = true ↔
    a.x ≤ x ∧ x < a.x + a.width ∧ a.y ≤ y ∧ y < a.y + a.height := by
  simp [contains, and_assoc]

theorem Inside.contains_eq_true (h : a.Inside x y) : a.contains x y = true := by
  obtain ⟨hleft, hright, htop, hbottom⟩ := h
  rw [contains_iff]
  omega

theorem outline?_eq_none_iff (h : a.contains x y = true) :
    a.outline? (x - a.x) (y - a.y) = none ↔ a.Inside x y := by
  rw [contains_iff] at h
  constructor
  · intro hnone
    simp only [outline?] at hnone
    split_ifs at hnone
    constructor <;> omega
  · rintro ⟨hleft, hright, htop, hbottom⟩
    simp only [outline?]
    split_ifs <;> first | rfl | omega

theorem mem_of_outline? {column row : Nat} {c : Char} (h : a.outline? column row = some c) :
    c ∈ ['┌', '└', '┐', '┘', '─', '│'] := by
  simp only [outline?] at h
  split_ifs at h <;> cases h <;> decide

end Area

namespace Panel

variable {p : Panel} {x y : Nat}

/-- The cell at a column and row counted from inside the outline. -/
def inner (p : Panel) (column row : Nat) : Cell :=
  match p.text? column row with
  | some c => ⟨c, p.ink⟩
  | none => ⟨' ', p.ground⟩

theorem cell?_of_inside (h : p.area.Inside x y) :
    p.cell? x y = some (p.inner (x - p.area.x - 1) (y - p.area.y - 1)) := by
  have htitle : p.title? (x - p.area.x) (y - p.area.y) = none :=
    if_neg fun hrow => by have := h.top; omega
  have houtline := (Area.outline?_eq_none_iff h.contains_eq_true).2 h
  rw [cell?, if_pos h.contains_eq_true]
  simp only [htitle, houtline]
  rfl

theorem isSome_cell? (h : p.area.contains x y = true) : (p.cell? x y).isSome = true := by
  rw [cell?, if_pos h]
  rfl

theorem cell?_eq_none (h : p.area.contains x y = false) : p.cell? x y = none := by
  simp [cell?, h]

/-- A character that is in no title or outline is text. -/
theorem text?_of_cell? {c : Char} {colour : Colour} (htitle : c ∉ p.title)
    (houtline : c ∉ [' ', '┌', '└', '┐', '┘', '─', '│']) (h : p.cell? x y = some ⟨c, colour⟩) :
    p.area.Inside x y ∧ p.text? (x - p.area.x - 1) (y - p.area.y - 1) = some c := by
  by_cases hcontains : p.area.contains x y = true
  · rw [cell?, if_pos hcontains, Option.some.injEq] at h
    split at h
    · next c' hc' =>
      cases h
      have hmem := (Option.ite_none_right_eq_some.1 hc').2
      exact absurd (List.mem_of_getElem? hmem) htitle
    · split at h
      · next c' hc' =>
        cases h
        exact absurd (List.mem_cons_of_mem _ (Area.mem_of_outline? hc')) houtline
      · next hnone =>
        refine ⟨(Area.outline?_eq_none_iff hcontains).1 hnone, ?_⟩
        split at h
        · next c' hc' =>
          cases h
          exact hc'
        · cases h
          exact absurd (List.mem_cons_self ..) houtline
  · rw [cell?, if_neg hcontains] at h
    cases h

end Panel

namespace View

variable {κ : Type} (m : Machine κ) (s : Screen) {width height x y : Nat}

/-- The blank columns between the outline of the display and the screen. -/
def margin (width : Nat) : Nat := (width - 19) / 2 - 32

theorem getElem?_map_range {α : Type} (f : Nat → α) (n i : Nat) :
    ((List.range n).map f)[i]? = if i < n then some (f i) else none := by
  by_cases h : i < n <;> simp [h]

theorem text?_displayPanel (width height column row : Nat) :
    (displayPanel s width height).text? column row =
      if row < 32 ∧ margin width ≤ column ∧ column < margin width + 64 then
        some (if s.pixel (column - margin width) row then '█' else ' ')
      else none := by
  have hindent : (displayPanel s width height).indent 64 = margin width := by
    simp only [Panel.indent, displayPanel, sideWidth, margin, if_true]
    omega
  have hlines := getElem?_map_range
    (fun y => (List.range 64).map fun x => if s.pixel x y then '█' else ' ') 32 row
  rw [Panel.text?, show (displayPanel s width height).lines[row]? = _ from hlines]
  by_cases hrow : row < 32
  · rw [if_pos hrow, Option.bind_some, List.length_map, List.length_range, hindent]
    by_cases hcolumn : margin width ≤ column
    · simp only [hcolumn, hrow, if_true, getElem?_map_range, true_and]
      congr 1
      exact propext (by omega)
    · simp [hcolumn]
  · rw [if_neg hrow, if_neg (fun h => hrow h.1), Option.bind_none]

theorem inside_display (hwidth : 83 ≤ width) (hheight : 34 ≤ height) (hx : x < 64) (hy : y < 32) :
    (displayPanel s width height).area.Inside (1 + margin width + x) (1 + y) := by
  constructor <;> simp only [displayPanel, sideWidth, margin] <;> omega

/-- A pixel is a cell, on or off. -/
theorem cell?_displayPanel (hwidth : 83 ≤ width) (hheight : 34 ≤ height) (hx : x < 64)
    (hy : y < 32) :
    (displayPanel s width height).cell? (1 + margin width + x) (1 + y) =
      some ⟨if s.pixel x y then '█' else ' ', .green⟩ := by
  have hcolumn : 1 + margin width + x - 0 - 1 = margin width + x := by omega
  have hrow : 1 + y - 0 - 1 = y := by omega
  rw [Panel.cell?_of_inside (inside_display s hwidth hheight hx hy), Panel.inner,
    show (displayPanel s width height).area = ⟨0, 0, width - sideWidth, height⟩ from rfl, hcolumn,
    hrow, text?_displayPanel, if_pos ⟨hy, by omega, by omega⟩, Nat.add_sub_cancel_left]
  rfl

/-- What looks like a pixel is one. -/
theorem exists_pixel_of_cell? {column row : Nat} {colour : Colour}
    (h : (displayPanel s width height).cell? column row = some ⟨'█', colour⟩) :
    ∃ x < 64, ∃ y < 32, column = 1 + margin width + x ∧ row = 1 + y := by
  obtain ⟨hinside, htext⟩ := Panel.text?_of_cell? (p := displayPanel s width height)
    (by simp [displayPanel]) (by decide) h
  have hleft : 0 < column := hinside.left
  have htop : 0 < row := hinside.top
  rw [text?_displayPanel] at htext
  obtain ⟨⟨hrow, hcolumn, hend⟩, -⟩ := Option.ite_none_right_eq_some.1 htext
  change row - 0 - 1 < 32 at hrow
  change margin width ≤ column - 0 - 1 at hcolumn
  change column - 0 - 1 < margin width + 64 at hend
  exact ⟨column - 1 - margin width, by omega, row - 1, by omega, by omega, by omega⟩

/-! ## Side by side -/

theorem picture_of_le (hwidth : 83 ≤ width) (hheight : 34 ≤ height) :
    picture m width height = [displayPanel m.screen width height, registersPanel m width,
      stackPanel m.stack.toList width height] := by
  rw [picture, if_neg]
  simp only [minWidth, minHeight, sideWidth]
  omega

theorem cell_of_display {cell : Cell} (hwidth : 83 ≤ width) (hheight : 34 ≤ height)
    (h : (displayPanel m.screen width height).cell? x y = some cell) :
    (picture m width height).cell x y = cell := by
  simp [picture_of_le m hwidth hheight, Picture.cell, h]

/-- The side panels begin where the display ends. -/
theorem eq_displayPanel_of_contains (hwidth : 83 ≤ width) (hheight : 34 ≤ height)
    (hcontains : (displayPanel m.screen width height).area.contains x y = true) {p : Panel}
    (hp : p ∈ picture m width height) (h : p.area.contains x y = true) :
    p = displayPanel m.screen width height := by
  have hleft : x < 0 + (width - sideWidth) := (Area.contains_iff.1 hcontains).2.1
  rw [picture_of_le m hwidth hheight] at hp
  rw [Area.contains_iff] at h
  simp only [List.mem_cons, List.not_mem_nil, or_false] at hp
  obtain rfl | rfl | rfl := hp
  · rfl
  · have hright : width - sideWidth ≤ x := h.1
    omega
  · have hright : width - sideWidth ≤ x := h.1
    omega

/-! ## Reading the screen back -/

/-- The pixel that can be seen in the rows of a terminal. -/
def seenPixel (width : Nat) (rows : List (List Cell)) (x y : Nat) : Bool :=
  (rows[1 + y]?.bind (·[1 + margin width + x]?)) = some ⟨'█', .green⟩

theorem getElem?_rows (p : Picture) (hx : x < width) (hy : y < height) :
    (p.rows width height)[y]?.bind (·[x]?) = some (p.cell x y) := by
  simp [Picture.rows, hx, hy]

theorem seenPixel_picture (hwidth : 83 ≤ width) (hheight : 34 ≤ height) (hx : x < 64)
    (hy : y < 32) :
    seenPixel width ((picture m width height).rows width height) x y = m.screen.pixel x y := by
  have hcell := cell_of_display m hwidth hheight (cell?_displayPanel m.screen hwidth hheight hx hy)
  have hcolumn : 1 + margin width + x < width := by
    unfold margin
    omega
  rw [seenPixel, getElem?_rows _ hcolumn (by omega), hcell]
  cases m.screen.pixel x y <;> decide

/-- **The screen in a picture.** It stands within the display panel, a cell for a pixel, and can be
read back. -/
theorem picture_shows_screen (hwidth : 83 ≤ width) (hheight : 34 ≤ height) :
    32 ≤ (width - 19) / 2 ∧
    (∀ x < 64, ∀ y < 32,
      (picture m width height).cell (1 + margin width + x) (1 + y) =
        ⟨if m.screen.pixel x y then '█' else ' ', .green⟩ ∧
      (displayPanel m.screen width height).area.Inside (1 + margin width + x) (1 + y) ∧
      ∀ p ∈ picture m width height, p.area.contains (1 + margin width + x) (1 + y) = true →
        p = displayPanel m.screen width height) ∧
    (∀ column row, (displayPanel m.screen width height).area.contains column row = true →
      ((picture m width height).cell column row).glyph = '█' →
      ∃ x < 64, ∃ y < 32, column = 1 + margin width + x ∧ row = 1 + y) ∧
    (∀ x < 64, ∀ y < 32,
      seenPixel width ((picture m width height).rows width height) x y = m.screen.pixel x y) ∧
    ∀ m' : Machine κ, (picture m' width height).rows width height =
      (picture m width height).rows width height → m'.screen = m.screen := by
  refine ⟨by omega, ?_, ?_, ?_, ?_⟩
  · intro x hx y hy
    have hinside := inside_display m.screen hwidth hheight hx hy
    exact ⟨cell_of_display m hwidth hheight (cell?_displayPanel m.screen hwidth hheight hx hy),
      hinside, fun p hp => eq_displayPanel_of_contains m hwidth hheight hinside.contains_eq_true hp⟩
  · intro column row hcontains hglyph
    obtain ⟨cell, hcell⟩ := Option.isSome_iff_exists.1 (Panel.isSome_cell? hcontains)
    rw [cell_of_display m hwidth hheight hcell] at hglyph
    obtain ⟨glyph, colour⟩ := cell
    cases hglyph
    exact exists_pixel_of_cell? m.screen hcell
  · intro x hx y hy
    exact seenPixel_picture m hwidth hheight hx hy
  · intro m' hrows
    apply Screen.ext_pixel
    intro px py
    rw [← seenPixel_picture m' hwidth hheight px.isLt py.isLt, hrows,
      seenPixel_picture m hwidth hheight px.isLt py.isLt]

/-- The last pixel of the screen and the blank cell beside it. -/
theorem picture_shows_corner :
    let m := { Machine.bare [] with screen := (Screen.blank.draw 63 31 [0x80]).1 }
    (picture m 88 40).cell 66 32 = ⟨'█', .green⟩ ∧ ((picture m 88 40).cell 67 32).glyph ≠ '█' := by
  intro m
  have hpixel : m.screen.pixel 63 31 = true := by decide +kernel
  have hmargin : margin 88 = 2 := rfl
  obtain ⟨-, hpixels, honly, -, -⟩ :=
    picture_shows_screen m (by decide : 83 ≤ 88) (by decide : 34 ≤ 40)
  constructor
  · have hcell := (hpixels 63 (by decide) 31 (by decide)).1
    rwa [hpixel, hmargin] at hcell
  · intro hglyph
    obtain ⟨x, hx, y, -, hcolumn, -⟩ := honly 67 32 (by decide) hglyph
    omega

end View

end Chip8.Terminal
