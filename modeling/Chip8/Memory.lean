import Chip8.Bytes
import Chip8.Fault
import Chip8.Glyphs

/-!
# Memory

Memory is 4096 bytes; nothing wraps around at its end. Reading and writing a range of bytes checks
the whole range first, so a failing write changes nothing, and a range without bytes is always
allowed.
-/

namespace Chip8

@[ext] structure Memory where
  bytes : Vector UInt8 4096
  deriving DecidableEq

namespace Memory

/-- Zeros, with the glyphs in front. -/
def blank : Memory :=
  ⟨overwrite (Vector.replicate 4096 0) 0 glyphs⟩

instance : Inhabited Memory :=
  ⟨blank⟩

/-- Fails unless the `length` bytes from `start` on all exist. The address in the fault is the first
one of the range that does not. -/
def requireRange (start length : Nat) : Except Fault Unit :=
  if length = 0 ∨ start + length ≤ 4096 then .ok () else .error (.outOfBounds (max start 4096))

def readByte (m : Memory) (address : UInt16) : Except Fault UInt8 :=
  match m.bytes[address.toNat]? with
  | some value => .ok value
  | none => .error (.outOfBounds address.toNat)

def writeByte (m : Memory) (address : UInt16) (value : UInt8) : Except Fault Memory :=
  if h : address.toNat < 4096 then .ok ⟨m.bytes.set address.toNat value⟩
  else .error (.outOfBounds address.toNat)

/-- The bytes from `start` on, `length` of them or as many as there are. -/
def slice (m : Memory) (start length : Nat) : List UInt8 :=
  (m.bytes.extract start (start + length)).toList

def read (m : Memory) (address : UInt16) (length : Nat) : Except Fault (List UInt8) := do
  requireRange address.toNat length
  return m.slice address.toNat length

/-- The word whose bytes, high byte first, are at `address` and behind it. -/
def readWord (m : Memory) (address : UInt16) : Except Fault Word := do
  let bytes ← m.read address 2
  return .ofBytes (bytes.getD 0 0) (bytes.getD 1 0)

def write (m : Memory) (address : UInt16) (values : List UInt8) : Except Fault Memory := do
  requireRange address.toNat values.length
  return ⟨overwrite m.bytes address.toNat values⟩

/-- Copies an image to `base`, where it has to fit. An empty image fits nowhere beyond the end of
memory, although an empty write is allowed there. -/
def load (m : Memory) (image : List UInt8) (base : UInt16) : Except LoadError Memory :=
  if base.toNat + image.length ≤ 4096 then .ok ⟨overwrite m.bytes base.toNat image⟩
  else .error (.programTooLarge image.length base 4096)

theorem requireRange_eq_ok_iff {start length : Nat} :
    requireRange start length = .ok () ↔ length = 0 ∨ start + length ≤ 4096 := by
  unfold requireRange
  split <;> simp_all

theorem requireRange_eq_error_iff {start length : Nat} {fault : Fault} :
    requireRange start length = .error fault ↔
      0 < length ∧ 4096 < start + length ∧ fault = .outOfBounds (max start 4096) := by
  unfold requireRange
  split
  · simp only [reduceCtorEq, false_iff, not_and]
    omega
  · rename_i h
    obtain ⟨pos, lt⟩ : 0 < length ∧ 4096 < start + length := by omega
    simp [pos, lt, eq_comm]

theorem length_slice {m : Memory} {start length : Nat} (h : start + length ≤ 4096) :
    (m.slice start length).length = length := by
  simp only [slice, Vector.length_toList]
  omega

theorem getElem?_slice (m : Memory) {start length i : Nat} (h : i < length) :
    (m.slice start length)[i]? = m.bytes[start + i]? := by
  simp only [slice, Vector.getElem?_toList, Vector.getElem?_extract]
  simp
  omega

end Memory

end Chip8
