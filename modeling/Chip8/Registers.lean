import Chip8.Word

/-!
# Registers

The registers V0 to VF, the index register I and the program counter. VF doubles as the flag that
some instructions write; its name is `Registers.flag`.
-/

namespace Chip8

@[ext] structure Registers where
  v : Vector UInt8 16
  index : UInt16
  pc : UInt16
  deriving DecidableEq, Repr

namespace Registers

/-- All zero, with the program counter at `address`. -/
def startingAt (address : UInt16) : Registers where
  v := Vector.replicate 16 0
  index := 0
  pc := address

instance : Inhabited Registers :=
  ⟨startingAt 0⟩

/-- The register that instructions write flags to. -/
def flag : Register := 0xF

def get (r : Registers) (x : Register) : UInt8 :=
  r.v[x]

def set (r : Registers) (x : Register) (value : UInt8) : Registers :=
  { r with v := r.v.set x value }

def getFlag (r : Registers) : UInt8 :=
  r.get flag

def setFlag (r : Registers) (value : UInt8) : Registers :=
  r.set flag value

/-- Writes 1 to the flag if the condition holds and 0 if not. -/
def setFlagIf (r : Registers) (condition : Bool) : Registers :=
  r.setFlag (if condition then 1 else 0)

def setFlag? (r : Registers) : Option Bool → Registers
  | some condition => r.setFlagIf condition
  | none => r

def setIndex (r : Registers) (value : UInt16) : Registers :=
  { r with index := value }

def jump (r : Registers) (address : UInt16) : Registers :=
  { r with pc := address }

def advance (r : Registers) : Registers :=
  r.jump (r.pc + 2)

/-- Moves on to the next instruction, or to the one behind it if the condition holds. -/
def skipIf (r : Registers) (condition : Bool) : Registers :=
  if condition then r.advance.advance else r.advance

def upTo (r : Registers) (x : Register) : List UInt8 :=
  r.v.toList.take (x.val + 1)

variable (r : Registers) (x y : Register) (value : UInt8) (address : UInt16)

@[simp] theorem get_set_self : (r.set x value).get x = value := by
  simp [get, set]

theorem get_set (r : Registers) (x y : Register) (value : UInt8) :
    (r.set x value).get y = if x = y then value else r.get y := by
  simp only [get, set, Fin.getElem_fin, Vector.getElem_set, Fin.val_inj]

@[simp] theorem index_set : (r.set x value).index = r.index := rfl

@[simp] theorem pc_set : (r.set x value).pc = r.pc := rfl

@[simp] theorem get_setIndex : (r.setIndex address).get x = r.get x := rfl

@[simp] theorem index_setIndex : (r.setIndex address).index = address := rfl

@[simp] theorem pc_setIndex : (r.setIndex address).pc = r.pc := rfl

@[simp] theorem get_jump : (r.jump address).get x = r.get x := rfl

@[simp] theorem index_jump : (r.jump address).index = r.index := rfl

@[simp] theorem pc_jump : (r.jump address).pc = address := rfl

@[simp] theorem pc_advance : r.advance.pc = r.pc + 2 := rfl

@[simp] theorem length_upTo : (r.upTo x).length = x.val + 1 := by
  simp only [upTo, List.length_take, Vector.length_toList]
  omega

theorem pc_skipIf (condition : Bool) :
    (r.skipIf condition).pc = if condition then r.pc + 2 + 2 else r.pc + 2 := by
  cases condition <;> rfl

end Registers

end Chip8
