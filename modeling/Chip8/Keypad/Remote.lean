import Chip8.Channel
import Chip8.Keypad.Wired

/-!
# Remote keypads

A keypad that is told of its keys through a channel with room for 64 events. Whenever the machine
asks anything, the events that have arrived are first applied to the pins, in order.
-/

namespace Chip8

inductive KeyEvent where
  | down (key : Key)
  | up (key : Key)
  deriving DecidableEq, Repr

def WiredKeypad.apply (k : WiredKeypad) : KeyEvent → WiredKeypad
  | .down key => k.setPin key true
  | .up key => k.setPin key false

structure RemoteKeypad where
  events : Channel KeyEvent 64
  wired : WiredKeypad
  deriving DecidableEq, Repr

namespace RemoteKeypad

def idle : RemoteKeypad :=
  ⟨.new, .idle⟩

instance : Inhabited RemoteKeypad :=
  ⟨idle⟩

/-- Reports an event from afar. -/
def send (k : RemoteKeypad) (event : KeyEvent) : Delivery × RemoteKeypad :=
  let (delivery, events) := k.events.send event
  (delivery, { k with events })

/-- Nothing more will be reported. -/
def close (k : RemoteKeypad) : RemoteKeypad :=
  { k with events := k.events.close }

/-- Applies the events that have arrived. -/
def settle (k : RemoteKeypad) : RemoteKeypad :=
  let (arrived, events) := k.events.drain
  ⟨events, arrived.foldl WiredKeypad.apply k.wired⟩

def isDown (k : RemoteKeypad) (key : Key) : Bool × RemoteKeypad :=
  (k.settle.wired.isDown key, k.settle)

def takePress (k : RemoteKeypad) : Option Key × RemoteKeypad :=
  let (press, wired) := k.settle.wired.takePress
  (press, { k.settle with wired })

def clearPresses (k : RemoteKeypad) : RemoteKeypad :=
  { k.settle with wired := k.settle.wired.clearPresses }

end RemoteKeypad

instance : Keypad RemoteKeypad where
  isDown := RemoteKeypad.isDown
  takePress := RemoteKeypad.takePress
  clearPresses := RemoteKeypad.clearPresses
  update := RemoteKeypad.settle

end Chip8
