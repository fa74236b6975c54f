/-!
# Displays

What a machine needs of a display. `Headless` is the display of a machine that has none.
-/

namespace Chip8

/-- States of a display. Every byte of a sprite is a row of eight pixels, the leftmost in its most
significant bit. -/
class Display (δ : Type) where
  clear : δ → δ
  /-- Draws a sprite from `x` and `y` on, and tells whether it hit anything. -/
  draw (display : δ) (x y : UInt8) (sprite : List UInt8) : Bool × δ

/-- Shows nothing and is never hit. -/
structure Headless where
  deriving DecidableEq, Repr, Inhabited

instance : Display Headless where
  clear display := display
  draw display _ _ _ := (false, display)

end Chip8
