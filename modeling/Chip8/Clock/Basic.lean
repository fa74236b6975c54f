import Chip8.Log

/-!
# Clocks

A clock makes a chip execute instructions at some pace. It is operated by signals: two change the
pace by one step within a bound, two suspend and resume execution, and one ends the run.
-/

namespace Chip8

inductive Signal where
  | speedUp
  | slowDown
  | pause
  | resume
  | quit
  deriving DecidableEq, Repr

/-- How fast a clock goes and how that can be changed. Nothing relates the four numbers. -/
structure Pace where
  cyclesPerSecond : UInt32
  /-- What one signal adds or takes away. -/
  step : UInt32
  slowest : UInt32
  fastest : UInt32
  deriving DecidableEq, Repr

namespace Pace

def standard : Pace where
  cyclesPerSecond := 500
  step := 100
  slowest := 100
  fastest := 5000

instance : Inhabited Pace :=
  ⟨standard⟩

/-- One step faster, but no faster than the upper bound or the largest number. -/
def faster (p : Pace) : Pace :=
  { p with
    cyclesPerSecond :=
      .ofNat (min (min (p.cyclesPerSecond.toNat + p.step.toNat) (UInt32.size - 1))
        p.fastest.toNat) }

/-- One step slower, but no slower than the lower bound. -/
def slower (p : Pace) : Pace :=
  { p with
    cyclesPerSecond := .ofNat (max (p.cyclesPerSecond.toNat - p.step.toNat) p.slowest.toNat) }

end Pace

structure Clock where
  pace : Pace
  paused : Bool
  /-- The number of steps that succeeded under this clock, which starts again from 0 at 2^64. -/
  cycles : UInt64
  deriving DecidableEq, Repr

namespace Clock

def new (pace : Pace) : Clock :=
  ⟨pace, false, 0⟩

instance : Inhabited Clock :=
  ⟨new .standard⟩

/-- What a signal does to a clock. The end of a run leaves the clock as it is. -/
def handle (c : Clock) : Signal → Clock
  | .speedUp => { c with pace := c.pace.faster }
  | .slowDown => { c with pace := c.pace.slower }
  | .pause => { c with paused := true }
  | .resume => { c with paused := false }
  | .quit => c

/-- What a clock reports when it handles a signal. -/
def remarks (c : Clock) (signal : Signal) : List Record :=
  match signal with
  | .speedUp | .slowDown => [.runningAt (c.handle signal).pace.cyclesPerSecond]
  | _ => []

end Clock

end Chip8
