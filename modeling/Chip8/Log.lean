import Chip8.Fault
import Chip8.Instruction.Listing

/-!
# The log

What machines and clocks report while they work. A `Record` says what happened; its level and its
text follow from that. `Turn` is what an operation comes to: the state it leaves, its result, and
the records it made.
-/

namespace Chip8

inductive Level where
  | trace
  | debug
  | error
  deriving DecidableEq, Repr

inductive Record where
  /-- An instruction is about to be executed, with these registers. -/
  | executing (pc : UInt16) (instruction : Instruction) (v : Vector UInt8 16) (index : UInt16)
  /-- The instruction at `pc` could not be executed. -/
  | halting (pc : UInt16) (fault : Fault)
  | waitingForKey (pc : UInt16)
  | receivedKey (key : Key)
  | soundOn (ticks : UInt8)
  | soundExpired
  | initialized (address : UInt16)
  | loaded (length : Nat)
  | runningAt (hertz : UInt32)
  deriving DecidableEq, Repr

namespace Record

def level : Record → Level
  | .executing .. => .trace
  | .halting .. => .error
  | _ => .debug

/-- The values of registers as a list in brackets. -/
def registersText (v : Vector UInt8 16) : String :=
  "[" ++ String.intercalate ", " (v.toList.map fun value => Hexadecimal.bare 2 value.toNat) ++ "]"

def text : Record → String
  | .executing pc instruction v index =>
    Hexadecimal.literal 3 pc.toNat ++ ": " ++ instruction.text ++ " " ++ registersText v ++ " I="
      ++ Hexadecimal.literal 3 index.toNat
  | .halting pc fault => "Halting at " ++ Hexadecimal.literal 3 pc.toNat ++ ": " ++ fault.message
  | .waitingForKey pc => "Waiting for key at " ++ Hexadecimal.literal 3 pc.toNat
  | .receivedKey key => "Received key " ++ Hexadecimal.bare 1 key.val
  | .soundOn ticks => "Sound on for " ++ toString ticks.toNat ++ " ticks"
  | .soundExpired => "Sound timer expired"
  | .initialized address => "Initialized at " ++ Hexadecimal.literal 3 address.toNat
  | .loaded length => "Loaded program of " ++ toString length ++ " bytes"
  | .runningAt hertz => "Running at " ++ toString hertz.toNat ++ " Hz"

end Record

structure Turn (σ ρ : Type) where
  /-- The state that the operation leaves. -/
  state : σ
  result : ρ
  /-- The records that it made, first one first. -/
  log : List Record

end Chip8
