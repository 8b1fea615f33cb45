/-!
# Screen

64 by 32 pixels, each on or off, kept as one bit vector per row with the leftmost pixel on top.
A sprite is eight pixels wide and is drawn by flipping: every set bit flips the pixel under it,
wrapping around the edges.
-/

namespace Chip8

@[ext]
structure Screen where
  rows : Vector (BitVec 64) 32
  deriving DecidableEq

namespace Screen

def blank : Screen := ⟨Vector.replicate 32 0⟩

/-- Coordinates wrap around the edges. -/
def pixel (s : Screen) (x y : Nat) : Bool :=
  s.rows[Fin.ofNat 32 y].getMsbD (x % 64)

/-- The number of pixels that are on. -/
def lit (s : Screen) : Nat :=
  s.rows.toList.foldl (fun n row => n + (List.range 64).countP row.getMsbD) 0

/-- One sprite row as a screen row, starting at column `x` and wrapping. -/
def stripe (x : Nat) (b : UInt8) : BitVec 64 :=
  ((b.toBitVec.setWidth 64) <<< 56).rotateRight x

/-- Flips pixels of one row. The flag tells whether one of them was on. -/
def flipRow (s : Screen) (y : Nat) (flips : BitVec 64) : Screen × Bool :=
  have hy : y % 32 < 32 := Nat.mod_lt y (by decide)
  (⟨s.rows.set (y % 32) (s.rows[y % 32] ^^^ flips)⟩, s.rows[y % 32] &&& flips != 0)

/-- Draws sprite rows downwards from row `y`. -/
def drawRows (s : Screen) (x y : Nat) : List UInt8 → Screen × Bool
  | [] => (s, false)
  | b :: bs =>
    let (above, erased) := s.flipRow y (stripe x b)
    let (all, erasedBelow) := above.drawRows x (y + 1) bs
    (all, erased || erasedBelow)

/-- Draws a sprite of at most fifteen rows. The flag tells whether a pixel was switched off. -/
def draw (s : Screen) (x y : UInt8) (sprite : List UInt8) : Screen × Bool :=
  s.drawRows x.toNat y.toNat (sprite.take 15)

end Screen

end Chip8
