import Chip8.Log

/-!
# Timers

The delay and the sound timer count down sixty times a second of elapsed time, however that time is
cut into pieces. Elapsed time is in nanoseconds. What does not make up a whole tick is kept in
sixtieths of a nanosecond, so that nothing is rounded.
-/

namespace Chip8

def Timers.ticksPerSecond : Nat := 60

def Timers.nanosPerSecond : Nat := 1000000000

@[ext] structure Timers where
  delay : UInt8
  sound : UInt8
  /-- Elapsed time that is not yet a tick: nanoseconds times `ticksPerSecond`. -/
  debt : Nat
  debt_lt : debt < Timers.nanosPerSecond
  deriving DecidableEq, Repr

namespace Timers

def zero : Timers where
  delay := 0
  sound := 0
  debt := 0
  debt_lt := by decide

instance : Inhabited Timers :=
  ⟨zero⟩

/-- Whether a tone is to be played. -/
def soundActive (t : Timers) : Bool :=
  0 < t.sound

def setDelay (t : Timers) (value : UInt8) : Timers :=
  { t with delay := value }

def setSound (t : Timers) (value : UInt8) : Timers :=
  { t with sound := value }

/-- The number of whole ticks that are due once `elapsed` has passed. -/
def ticksDue (t : Timers) (elapsed : Nat) : Nat :=
  (t.debt + elapsed * ticksPerSecond) / nanosPerSecond

/-- What is left of a timer after some ticks. -/
def countDown (timer : UInt8) (ticks : Nat) : UInt8 :=
  UInt8.ofNat (timer.toNat - ticks)

theorem toNat_countDown (timer : UInt8) (ticks : Nat) :
    (countDown timer ticks).toNat = timer.toNat - ticks := by
  have := timer.toNat_lt
  simp only [countDown, UInt8.toNat_ofNat']
  omega

def advance (t : Timers) (elapsed : Nat) : Timers where
  delay := countDown t.delay (t.ticksDue elapsed)
  sound := countDown t.sound (t.ticksDue elapsed)
  debt := (t.debt + elapsed * ticksPerSecond) % nanosPerSecond
  debt_lt := Nat.mod_lt _ (by decide)

/-- The number of ticks as `advance` reports it, which is at most the largest 64-bit number. -/
def ticksReported (t : Timers) (elapsed : Nat) : Nat :=
  min (t.ticksDue elapsed) (UInt64.size - 1)

/-- What the timers report when they age. -/
def remarks (t : Timers) (elapsed : Nat) : List Record :=
  if t.soundActive && !(t.advance elapsed).soundActive then [.soundExpired] else []

end Timers

end Chip8
