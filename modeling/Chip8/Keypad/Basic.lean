import Chip8.Word

/-!
# Keypads

What a machine needs of a keypad with its sixteen keys.
-/

namespace Chip8

/-- States of a keypad. Questions may change the state, since a keypad may take in pending input
before it answers. -/
class Keypad (κ : Type) where
  isDown (keypad : κ) (key : Key) : Bool × κ
  /-- Removes and returns the oldest press that was not taken yet. -/
  takePress : κ → Option Key × κ
  /-- Forgets all presses that were not taken yet. -/
  clearPresses : κ → κ
  /-- The machine calls this once a step, so that pending input is taken in even if a program never
  asks for a key. -/
  update : κ → κ

end Chip8
