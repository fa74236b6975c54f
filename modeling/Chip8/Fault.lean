import Chip8.Word
import Chip8.Text.Hexadecimal

/-!
# Faults

What can go wrong, as causes. A `Fault` stops a machine that executes a program; a `LoadError`
keeps a program from being loaded. The wording of each is in its `message`.
-/

namespace Chip8

inductive Fault where
  /-- The first address of an access that no memory stands behind. -/
  | outOfBounds (address : Nat)
  /-- The word at `pc` is no instruction. -/
  | illegalInstruction (word : Word) (pc : UInt16)
  | stackOverflow
  | stackUnderflow
  /-- There is no program to execute. -/
  | notInitialized
  deriving DecidableEq, Repr

def Fault.message : Fault → String
  | .outOfBounds address =>
    "memory access at " ++ Hexadecimal.literal 4 address ++ " is out of bounds"
  | .illegalInstruction word pc =>
    "illegal instruction " ++ Hexadecimal.literal 4 word.toNat ++ " at "
      ++ Hexadecimal.literal 3 pc.toNat
  | .stackOverflow => "stack overflow"
  | .stackUnderflow => "stack underflow"
  | .notInitialized => "chip was not initialized"

inductive LoadError where
  /-- An image of `length` bytes at `base` reaches beyond the `capacity` bytes of memory. -/
  | programTooLarge (length : Nat) (base : UInt16) (capacity : Nat)
  deriving DecidableEq, Repr

def LoadError.message : LoadError → String
  | .programTooLarge length base capacity =>
    "program of " ++ toString length ++ " bytes does not fit at "
      ++ Hexadecimal.literal 3 base.toNat ++ " (memory holds " ++ toString capacity ++ " bytes)"

end Chip8
