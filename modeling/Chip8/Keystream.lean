import Chip8.Keystream.Block

/-!
# Random numbers

A `Keystream` is the endless sequence of words `Keystream.word key 0`, `Keystream.word key 1`, …
together with the number of words that were drawn from it. Keys are expanded from 64-bit seeds.
-/

namespace Chip8

structure Keystream where
  key : Vector UInt32 8
  drawn : Nat
  deriving DecidableEq, Repr

namespace Keystream

/-- One step of the generator that expands seeds. -/
def expansionStep (state : UInt64) : UInt64 :=
  state * 6364136223846793005 + 11634580027462260723

/-- The key word that the expanding generator shows in a state. -/
def expansionWord (state : UInt64) : UInt32 :=
  let mixed := (((state >>> 18) ^^^ state) >>> 27).toUInt32
  let turn := (state >>> 59).toUInt32
  (mixed >>> turn) ||| (mixed <<< (32 - turn))

/-- The eight words that the expanding generator shows after one to eight steps. -/
def keyOfSeed (seed : UInt64) : Vector UInt32 8 :=
  Vector.ofFn fun i => expansionWord (Nat.repeat expansionStep (i.val + 1) seed)

def ofSeed (seed : UInt64) : Keystream :=
  ⟨keyOfSeed seed, 0⟩

instance : Inhabited Keystream :=
  ⟨ofSeed 0⟩

/-- Word `k` of the stream of a key. The blocks are numbered by a 64-bit counter. -/
def word (key : Vector UInt32 8) (k : Nat) : UInt32 :=
  (Block.words key (UInt64.ofNat (k / 16)))[k % 16]

/-- Draws a word and keeps its low byte. -/
def next (s : Keystream) : UInt8 × Keystream :=
  ((word s.key s.drawn).toUInt8, { s with drawn := s.drawn + 1 })

end Keystream

end Chip8
