import Chip8.Machine.Basic

/-!
# Execution of instructions

`Instruction.execute` is the table of what instructions do. Operands are read before anything is
written and the flag is written last, so it wins over a result in VF. Whatever can fail is done
first: an instruction that fails has changed nothing.
-/

namespace Chip8

variable {δ κ : Type}

/-- Whether the key that Vx names is held, and the keypad after it was asked. A register that names
no key makes nobody ask. -/
def Registers.keyHeld [Keypad κ] (r : Registers) (keypad : κ) (x : Register) : Bool × κ :=
  match Key.ofByte? (r.get x) with
  | some key => Keypad.isDown keypad key
  | none => (false, keypad)

/-- Whether a condition holds, and the keypad after it was asked. -/
def Condition.holds [Keypad κ] (condition : Condition) (r : Registers) (keypad : κ) : Bool × κ :=
  match condition with
  | .equal x value => (r.get x == value, keypad)
  | .notEqual x value => (r.get x != value, keypad)
  | .registersEqual x y => (r.get x == r.get y, keypad)
  | .registersNotEqual x y => (r.get x != r.get y, keypad)
  | .keyDown x => r.keyHeld keypad x
  | .keyUp x =>
    let (held, keypad) := r.keyHeld keypad x
    (!held, keypad)

/-- The digits of a byte in decimal, most significant first. -/
def decimalDigits (value : UInt8) : List UInt8 :=
  [value / 100, value / 10 % 10, value % 10]

namespace Instruction

def execute [Display δ] [Keypad κ] (i : Instruction) (m : Machine δ κ) :
    Except Fault (Machine δ κ) :=
  let r := m.registers
  match i with
  | .clearScreen =>
    .ok { m with display := Display.clear m.display, registers := r.advance }
  | .ret => do
    let (address, stack) ← m.stack.pop
    return { m with stack, registers := r.jump address }
  | .jump a =>
    .ok { m with registers := r.jump a.toWord }
  | .call a => do
    let stack ← m.stack.push (r.pc + 2)
    return { m with stack, registers := r.jump a.toWord }
  | .skipIf condition =>
    let (holds, keypad) := condition.holds r m.keypad
    .ok { m with keypad, registers := r.skipIf holds }
  | .load x value =>
    .ok { m with registers := (r.set x value).advance }
  | .addValue x value =>
    .ok { m with registers := (r.set x (r.get x + value)).advance }
  | .operate op x y =>
    let (value, flag) := op.apply (r.get x) (r.get y)
    .ok { m with registers := ((r.set x value).setFlag? flag).advance }
  | .loadIndex a =>
    .ok { m with registers := (r.setIndex a.toWord).advance }
  | .jumpOffset a =>
    .ok { m with registers := r.jump (.ofNat (a.val + (r.get 0).toNat)) }
  | .random x mask =>
    let (byte, stream) := m.random.next
    .ok { m with random := stream, registers := (r.set x (byte &&& mask)).advance }
  | .draw x y rows => do
    let sprite ← m.memory.read r.index rows.val
    let (hit, display) := Display.draw m.display (r.get x) (r.get y) sprite
    return { m with display, registers := (r.setFlagIf hit).advance }
  | .loadDelay x =>
    .ok { m with registers := (r.set x m.timers.delay).advance }
  | .waitForKey x =>
    .ok { m with keypad := Keypad.clearPresses m.keypad, mode := .waiting x }
  | .setDelay x =>
    .ok { m with timers := m.timers.setDelay (r.get x), registers := r.advance }
  | .setSound x =>
    .ok { m with timers := m.timers.setSound (r.get x), registers := r.advance }
  | .addIndex x =>
    let sum := r.index.toNat + (r.get x).toNat
    .ok { m with registers := ((r.setIndex (.ofNat sum)).setFlagIf (0xFFF < sum)).advance }
  | .loadGlyph x =>
    .ok { m with registers := (r.setIndex (.ofNat ((r.get x).toNat * glyphLength))).advance }
  | .storeBcd x => do
    let memory ← m.memory.write r.index (decimalDigits (r.get x))
    return { m with memory, registers := r.advance }
  | .storeRegisters x => do
    let memory ← m.memory.write r.index (r.upTo x)
    return { m with memory, registers := r.advance }
  | .loadRegisters x => do
    let values ← m.memory.read r.index (x.val + 1)
    return { m with registers := { r with v := overwrite r.v 0 values }.advance }

/-- What an instruction reports when it is executed. -/
def remarks (i : Instruction) (r : Registers) : List Record :=
  match i with
  | .waitForKey _ => [.waitingForKey r.pc]
  | .setSound x => if 0 < r.get x then [.soundOn (r.get x)] else []
  | _ => []

end Instruction

end Chip8
