/-!
# Pictures

What a terminal shows is a cell for every column and row. A panel is a bordered block of lines that
knows its own cells and nothing of the rest; a picture is its panels over a blank ground.
-/

namespace Chip8.Terminal

inductive Colour where
  | plain
  | green
  | red
  deriving DecidableEq, Repr

structure Cell where
  glyph : Char := ' '
  colour : Colour := .plain
  deriving DecidableEq, Repr

structure Area where
  x : Nat
  y : Nat
  width : Nat
  height : Nat
  deriving DecidableEq, Repr

namespace Area

def contains (a : Area) (x y : Nat) : Bool :=
  a.x ≤ x && x < a.x + a.width && a.y ≤ y && y < a.y + a.height

/-- The outline, at a column and row counted from the area's own corner. Where an area is too thin
for its corners, the left one and then the upper one shows. -/
def outline? (a : Area) (column row : Nat) : Option Char :=
  let left := column = 0
  let right := column + 1 = a.width
  let top := row = 0
  let bottom := row + 1 = a.height
  if left ∧ top then some '┌'
  else if left ∧ bottom then some '└'
  else if right ∧ top then some '┐'
  else if right ∧ bottom then some '┘'
  else if top ∨ bottom then some '─'
  else if left ∨ right then some '│'
  else none

end Area

structure Panel where
  area : Area
  title : List Char := []
  lines : List (List Char)
  centred : Bool := true
  /-- The colour of the cells that lines cover. -/
  ink : Colour := .plain
  /-- The colour of all other cells. -/
  ground : Colour := .plain
  deriving DecidableEq, Repr

namespace Panel

/-- Where a line of `length` cells starts within the outline. -/
def indent (p : Panel) (length : Nat) : Nat :=
  if p.centred then (p.area.width - 2) / 2 - length / 2 else 0

/-- The text at a column and row counted from inside the outline. -/
def text? (p : Panel) (column row : Nat) : Option Char :=
  p.lines[row]?.bind fun text =>
    if p.indent text.length ≤ column then text[column - p.indent text.length]? else none

/-- The title stands in the top edge, between the corners. -/
def title? (p : Panel) (column row : Nat) : Option Char :=
  if row = 0 ∧ 0 < column ∧ column + 1 < p.area.width then p.title[column - 1]? else none

/-- The cell at a column and row of the terminal, if the panel covers it. -/
def cell? (p : Panel) (x y : Nat) : Option Cell :=
  if p.area.contains x y then
    let column := x - p.area.x
    let row := y - p.area.y
    some <| match p.title? column row with
      | some c => ⟨c, p.ground⟩
      | none => match p.area.outline? column row with
        | some c => ⟨c, p.ground⟩
        | none => match p.text? (column - 1) (row - 1) with
          | some c => ⟨c, p.ink⟩
          | none => ⟨' ', p.ground⟩
  else none

end Panel

abbrev Picture := List Panel

namespace Picture

def cell (p : Picture) (x y : Nat) : Cell := (p.findSome? (·.cell? x y)).getD {}

/-- The rows of a terminal that shows the picture. -/
def rows (p : Picture) (width height : Nat) : List (List Cell) :=
  (List.range height).map fun y => (List.range width).map fun x => p.cell x y

end Picture

end Chip8.Terminal
