import Chip8.Machine.Execution

/-!
# Steps

A step first lets the keypad take in its input. A running machine then executes one instruction, and
halts if it cannot; a waiting one asks for a key and, if there is one, stores it and moves on
without executing anything; idle and halted ones say why they do nothing.
-/

namespace Chip8

/-- What a successful step did. -/
inductive Outcome where
  | executed
  /-- No key has been pressed yet. -/
  | waiting
  /-- The key was stored and the machine runs again. -/
  | received (key : Key)
  deriving DecidableEq, Repr

namespace Machine

variable {δ κ : Type}

def fetch (m : Machine δ κ) : Except Fault Instruction := do
  let word ← m.memory.readWord m.registers.pc
  match Instruction.decode? word with
  | some i => return i
  | none => throw (.illegalInstruction word m.registers.pc)

/-- Stops for good because of a fault. -/
def halt (m : Machine δ κ) (fault : Fault) : Turn (Machine δ κ) (Except Fault Outcome) where
  state := { m with mode := .halted fault }
  result := .error fault
  log := [.halting m.registers.pc fault]

variable [Display δ] [Keypad κ]

def cycle (m : Machine δ κ) : Turn (Machine δ κ) (Except Fault Outcome) :=
  match m.fetch with
  | .error fault => m.halt fault
  | .ok i =>
    let announcement := Record.executing m.registers.pc i m.registers.v m.registers.index
    match i.execute m with
    | .ok next => ⟨next, .ok .executed, announcement :: i.remarks m.registers⟩
    | .error fault =>
      let halted := m.halt fault
      { halted with log := announcement :: halted.log }

/-- Stores the oldest press in Vx, if there is one, and moves on. -/
def awaitKey (m : Machine δ κ) (x : Register) : Turn (Machine δ κ) (Except Fault Outcome) :=
  match Keypad.takePress m.keypad with
  | (some key, keypad) =>
    { state := { m with
        keypad
        registers := (m.registers.set x (.ofNat key.val)).advance
        mode := .running }
      result := .ok (.received key)
      log := [.receivedKey key] }
  | (none, keypad) => ⟨{ m with keypad }, .ok .waiting, []⟩

def step (m : Machine δ κ) : Turn (Machine δ κ) (Except Fault Outcome) :=
  let m := { m with keypad := Keypad.update m.keypad }
  match m.mode with
  | .idle => ⟨m, .error .notInitialized, []⟩
  | .running => m.cycle
  | .waiting x => m.awaitKey x
  | .halted fault => ⟨m, .error fault, []⟩

end Machine

end Chip8
