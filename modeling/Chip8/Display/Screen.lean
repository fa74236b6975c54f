import Chip8.Display.Basic

/-!
# The screen

A screen of 64 × 32 pixels. Drawing toggles the pixels under the set bits of a sprite, one after the
other: the pixels `Screen.targets` lists. Coordinates wrap around at all edges, so a sprite with
more than 32 rows meets itself.
-/

namespace Chip8

/-- The position of a pixel, row by row from the upper left corner. -/
abbrev Pixel := Fin 2048

/-- The pixel in column `x` of row `y`. -/
def Pixel.wrapped (x y : Nat) : Pixel :=
  ⟨x % 64 + y % 32 * 64, by omega⟩

structure Screen where
  pixels : Vector Bool 2048
  /-- Whether anything was drawn or cleared since the marker was last taken. -/
  changed : Bool
  deriving DecidableEq

namespace Screen

def dark : Vector Bool 2048 :=
  Vector.replicate 2048 false

def blank : Screen :=
  ⟨dark, false⟩

instance : Inhabited Screen :=
  ⟨blank⟩

/-- Whether the pixel in column `x` of row `y` is on. -/
def pixel (s : Screen) (x y : Nat) : Bool :=
  s.pixels[Pixel.wrapped x y]

/-- Returns the marker and resets it. -/
def takeChanged (s : Screen) : Bool × Screen :=
  (s.changed, { s with changed := false })

def clear (_ : Screen) : Screen :=
  ⟨dark, true⟩

/-- The pixels that one row of a sprite toggles. -/
def rowTargets (x y : Nat) (row : UInt8) : List Pixel :=
  (List.range 8).filterMap fun column =>
    if row.toNat.testBit (7 - column) then some (.wrapped (x + column) y) else none

/-- The pixels that a sprite toggles, in order. -/
def targets (x y : UInt8) (sprite : List UInt8) : List Pixel :=
  sprite.zipIdx.flatMap fun (row, down) => rowTargets x.toNat (y.toNat + down) row

/-- Toggles a pixel, and records whether any pixel was on before its toggle. -/
def toggle (hitAndScreen : Bool × Screen) (p : Pixel) : Bool × Screen :=
  let (hit, s) := hitAndScreen
  (hit || s.pixels[p], ⟨s.pixels.set p (!s.pixels[p]), true⟩)

/-- Draws a sprite, and tells whether it turned a pixel off. -/
def draw (s : Screen) (x y : UInt8) (sprite : List UInt8) : Bool × Screen :=
  (targets x y sprite).foldl toggle (false, s)

end Screen

instance : Display Screen where
  clear := Screen.clear
  draw := Screen.draw

end Chip8
