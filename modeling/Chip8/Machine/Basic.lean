import Chip8.CallStack
import Chip8.Display.Basic
import Chip8.Keypad.Basic
import Chip8.Keystream
import Chip8.Log
import Chip8.Memory
import Chip8.Registers
import Chip8.Timers

/-!
# The machine

The state of a machine with a display and a keypad, and what a host does to it other than stepping:
starting it at an address, loading a program and letting time pass. Starting resets everything but
memory, the random numbers and what is attached; loading replaces memory too.
-/

namespace Chip8

/-- What a machine is about to do. -/
inductive Mode where
  /-- Nothing: there is no program. -/
  | idle
  /-- Execute the next instruction. -/
  | running
  /-- Store a key in Vx once one is pressed. -/
  | waiting (x : Register)
  /-- Nothing: an instruction could not be executed. -/
  | halted (fault : Fault)
  deriving DecidableEq, Repr

/-- A machine with a display in a state of `δ` and a keypad in a state of `κ`. -/
@[ext] structure Machine (δ κ : Type) where
  memory : Memory
  registers : Registers
  stack : CallStack
  timers : Timers
  mode : Mode
  random : Keystream
  display : δ
  keypad : κ

/-- The address at which programs are loaded and started. -/
def programStart : UInt16 := 0x200

namespace Machine

variable {δ κ : Type}

def new (display : δ) (keypad : κ) (random : Keystream) : Machine δ κ where
  memory := .blank
  registers := .startingAt 0
  stack := .empty
  timers := .zero
  mode := .idle
  random := random
  display := display
  keypad := keypad

def isWaiting (m : Machine δ κ) : Bool :=
  match m.mode with
  | .waiting _ => true
  | _ => false

def start (m : Machine δ κ) (address : UInt16) : Turn (Machine δ κ) Unit where
  state := { m with
    registers := .startingAt address
    stack := m.stack.clear
    timers := .zero
    mode := .running }
  result := ()
  log := [.initialized address]

/-- Loads a program into fresh memory and starts it; the result is its length. A program that does
not fit leaves the machine as it was, but idle. -/
def load (m : Machine δ κ) (program : List UInt8) :
    Turn (Machine δ κ) (Except LoadError Nat) :=
  match Memory.blank.load program programStart with
  | .ok memory =>
    let started := { m with memory }.start programStart
    ⟨started.state, .ok program.length, started.log ++ [.loaded program.length]⟩
  | .error e => ⟨{ m with mode := .idle }, .error e, []⟩

/-- Lets `elapsed` nanoseconds pass for the timers, whatever the machine is doing. -/
def tick (m : Machine δ κ) (elapsed : Nat) : Turn (Machine δ κ) Unit where
  state := { m with timers := m.timers.advance elapsed }
  result := ()
  log := m.timers.remarks elapsed

end Machine

end Chip8
