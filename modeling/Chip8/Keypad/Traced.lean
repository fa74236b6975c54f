import Chip8.Keypad.Basic

/-!
# Traced keypads

`TracedKeypad κ` is a keypad of kind `κ` that keeps a list of the calls made on it. `ManualKeypad`
is worked by hand: which keys are held and which presses are pending are set apart from each other.
-/

namespace Chip8

inductive KeypadCall where
  | isDown (key : Key)
  | takePress
  | clearPresses
  | update
  deriving DecidableEq, Repr

structure TracedKeypad (κ : Type) where
  keypad : κ
  /-- The calls so far, first one first. -/
  calls : Array KeypadCall

instance {κ : Type} [Keypad κ] : Keypad (TracedKeypad κ) where
  isDown t key :=
    let (down, keypad) := Keypad.isDown t.keypad key
    (down, ⟨keypad, t.calls.push (.isDown key)⟩)
  takePress t :=
    let (press, keypad) := Keypad.takePress t.keypad
    (press, ⟨keypad, t.calls.push .takePress⟩)
  clearPresses t := ⟨Keypad.clearPresses t.keypad, t.calls.push .clearPresses⟩
  update t := ⟨Keypad.update t.keypad, t.calls.push .update⟩

structure ManualKeypad where
  held : Vector Bool 16
  /-- The presses not taken yet, oldest first. -/
  presses : List Key
  deriving DecidableEq, Repr

namespace ManualKeypad

def idle : ManualKeypad :=
  ⟨Vector.replicate 16 false, []⟩

instance : Inhabited ManualKeypad :=
  ⟨idle⟩

def hold (k : ManualKeypad) (key : Key) (value : Bool) : ManualKeypad :=
  { k with held := k.held.set key value }

def press (k : ManualKeypad) (key : Key) : ManualKeypad :=
  { k with presses := k.presses ++ [key] }

end ManualKeypad

instance : Keypad ManualKeypad where
  isDown k key := (k.held[key], k)
  takePress k := (k.presses.head?, { k with presses := k.presses.tail })
  clearPresses k := { k with presses := [] }
  update k := k

end Chip8
