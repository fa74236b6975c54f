import Chip8.Word

/-!
# Instructions

The instruction set. The nine operations of the form `8xyn` differ in one function of two bytes,
`Operation.apply`; the six conditional skips differ in their `Condition`.
-/

namespace Chip8

/-- The operations `8xyn` on two registers, in the order of their last digit. -/
inductive Operation where
  | move
  | or
  | and
  | xor
  | add
  | sub
  | shiftRight
  | subReversed
  | shiftLeft
  deriving DecidableEq, Repr

/-- The last digit of the words of an operation. -/
def Operation.code : Operation → Fin 16
  | .move => 0x0
  | .or => 0x1
  | .and => 0x2
  | .xor => 0x3
  | .add => 0x4
  | .sub => 0x5
  | .shiftRight => 0x6
  | .subReversed => 0x7
  | .shiftLeft => 0xE

def Operation.ofCode? (code : Fin 16) : Option Operation :=
  match code with
  | 0x0 => some .move
  | 0x1 => some .or
  | 0x2 => some .and
  | 0x3 => some .xor
  | 0x4 => some .add
  | 0x5 => some .sub
  | 0x6 => some .shiftRight
  | 0x7 => some .subReversed
  | 0xE => some .shiftLeft
  | _ => none

theorem Operation.ofCode?_code (op : Operation) : ofCode? op.code = some op := by
  cases op <;> rfl

theorem Operation.code_of_ofCode? {code : Fin 16} {op : Operation} (h : ofCode? code = some op) :
    code = op.code := by
  unfold ofCode? at h
  split at h <;> cases h <;> rfl

/-- The result of an operation on the values of Vx and Vy, and what it writes to the flag. Sums
report a carry, differences that nothing was borrowed, and shifts, which move Vx alone, the bit
that falls out. -/
def Operation.apply (op : Operation) (vx vy : UInt8) : UInt8 × Option Bool :=
  match op with
  | .move => (vy, none)
  | .or => (vx ||| vy, none)
  | .and => (vx &&& vy, none)
  | .xor => (vx ^^^ vy, none)
  | .add => (vx + vy, some (decide (255 < vx.toNat + vy.toNat)))
  | .sub => (vx - vy, some (decide (vy.toNat ≤ vx.toNat)))
  | .shiftRight => (vx >>> 1, some (decide (vx.toNat % 2 = 1)))
  | .subReversed => (vy - vx, some (decide (vx.toNat ≤ vy.toNat)))
  | .shiftLeft => (vx <<< 1, some (decide (128 ≤ vx.toNat)))

inductive Condition where
  /-- `3xnn` -/
  | equal (x : Register) (value : UInt8)
  /-- `4xnn` -/
  | notEqual (x : Register) (value : UInt8)
  /-- `5xy0` -/
  | registersEqual (x y : Register)
  /-- `9xy0` -/
  | registersNotEqual (x y : Register)
  /-- `Ex9E`: the key that Vx names is held. -/
  | keyDown (x : Register)
  /-- `ExA1`: the key that Vx names is not held, or Vx names none. -/
  | keyUp (x : Register)
  deriving DecidableEq, Repr

inductive Instruction where
  /-- `00E0` -/
  | clearScreen
  /-- `00EE` -/
  | ret
  /-- `1nnn` -/
  | jump (address : Address)
  /-- `2nnn` -/
  | call (address : Address)
  /-- Passes over the next instruction if the condition holds. -/
  | skipIf (condition : Condition)
  /-- `6xnn` -/
  | load (x : Register) (value : UInt8)
  /-- `7xnn` -/
  | addValue (x : Register) (value : UInt8)
  /-- `8xyn` -/
  | operate (op : Operation) (x y : Register)
  /-- `Annn` -/
  | loadIndex (address : Address)
  /-- `Bnnn`: jumps to `nnn + V0`. -/
  | jumpOffset (address : Address)
  /-- `Cxnn` -/
  | random (x : Register) (mask : UInt8)
  /-- `Dxyn`: draws the `n` bytes at I. -/
  | draw (x y : Register) (rows : Fin 16)
  /-- `Fx07` -/
  | loadDelay (x : Register)
  /-- `Fx0A` -/
  | waitForKey (x : Register)
  /-- `Fx15` -/
  | setDelay (x : Register)
  /-- `Fx18` -/
  | setSound (x : Register)
  /-- `Fx1E` -/
  | addIndex (x : Register)
  /-- `Fx29`: points I at the glyph of the digit in Vx. -/
  | loadGlyph (x : Register)
  /-- `Fx33`: stores the three decimal digits of Vx at I. -/
  | storeBcd (x : Register)
  /-- `Fx55`: stores V0 to Vx at I. -/
  | storeRegisters (x : Register)
  /-- `Fx65`: loads V0 to Vx from I. -/
  | loadRegisters (x : Register)
  deriving DecidableEq, Repr

end Chip8
