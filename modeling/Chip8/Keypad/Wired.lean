import Chip8.Keypad.Basic

/-!
# Wired keypads

A keypad with a pin for each key. Setting a pin that was not set is a press; the latest sixteen
presses that were not taken yet are kept.
-/

namespace Chip8

/-- The last `count` items of a list, or all if there are fewer. -/
def latest {α : Type} (count : Nat) (items : List α) : List α :=
  items.drop (items.length - count)

theorem latest_eq_self {α : Type} {count : Nat} {items : List α} (h : items.length ≤ count) :
    latest count items = items := by
  simp [latest, Nat.sub_eq_zero_of_le h]

structure WiredKeypad where
  pins : Vector Bool 16
  /-- The presses not taken yet, oldest first. -/
  presses : List Key
  deriving DecidableEq, Repr

namespace WiredKeypad

def pressCapacity : Nat := 16

def idle : WiredKeypad :=
  ⟨Vector.replicate 16 false, []⟩

instance : Inhabited WiredKeypad :=
  ⟨idle⟩

def setPin (k : WiredKeypad) (key : Key) (value : Bool) : WiredKeypad where
  pins := k.pins.setIfInBounds key value
  presses :=
    if value && !k.pins.get key then latest pressCapacity (k.presses ++ [key]) else k.presses

/-- Releases all pins; presses stay pending. -/
def resetPins (k : WiredKeypad) : WiredKeypad :=
  { k with pins := Vector.replicate 16 false }

def isDown (k : WiredKeypad) (key : Key) : Bool :=
  k.pins.get key

def takePress (k : WiredKeypad) : Option Key × WiredKeypad :=
  (k.presses.head?, { k with presses := k.presses.tail })

def clearPresses (k : WiredKeypad) : WiredKeypad :=
  { k with presses := [] }

end WiredKeypad

instance : Keypad WiredKeypad where
  isDown k key := (k.isDown key, k)
  takePress := WiredKeypad.takePress
  clearPresses := WiredKeypad.clearPresses
  update k := k

end Chip8
