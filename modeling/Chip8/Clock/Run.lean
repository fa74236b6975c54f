import Chip8.Channel
import Chip8.Clock.Basic
import Chip8.Machine.Step

/-!
# Runs of a clock

A run goes in rounds. Each round reads all signals that have arrived, lets the chip make a step
unless the clock is paused, and then lets time pass for the chip. The run ends when a signal to quit
is read, when all signals are read and no more can come, or when a step fails.

Signals come from elsewhere while the chip is at work, as a `Schedule` says. A run keeps a history
of all that happens in it, and `Session.rounds` follows a run for a number of rounds, since a run
may go on for ever.
-/

namespace Chip8

/-- Anything a clock can drive. -/
class Clocked (σ : Type) where
  step : σ → Turn σ (Except Fault Outcome)
  /-- Lets some nanoseconds pass. -/
  tick : σ → Nat → Turn σ Unit

instance {δ κ : Type} [Display δ] [Keypad κ] : Clocked (Machine δ κ) where
  step := Machine.step
  tick := Machine.tick

/-- What whoever operates a clock can do. -/
inductive Post where
  | send (signal : Signal)
  | hangUp
  deriving DecidableEq, Repr

/-- What happens around a run. Steps and ticks are numbered from 1. -/
structure Schedule where
  before : List Post
  /-- What is posted while the chip makes its step of this number. -/
  duringStep : Nat → List Post
  /-- What is posted during the tick of this number. -/
  duringTick : Nat → List Post
  /-- How many nanoseconds pass with the tick of this number. -/
  elapsed : Nat → Nat

inductive Event where
  | sent (signal : Signal) (delivery : Delivery)
  | hungUp
  /-- The clock reads a signal and handles it. -/
  | received (signal : Signal)
  | stepped (result : Except Fault Outcome)
  | ticked
  | logged (record : Record)

/-- A run between two of its rounds. -/
structure Session (σ : Type) where
  clock : Clock
  chip : σ
  /-- The signals on their way. -/
  mail : Channel Signal 16
  steps : Nat
  ticks : Nat

/-- A part of a run: where it has got to, its history, and how the run has ended, if it has. -/
structure Progress (σ : Type) where
  session : Session σ
  events : List Event
  /-- The number of cycles of the clock, or the fault of the last step. -/
  ending : Option (Except Fault UInt64)

/-- Puts what is posted on its way. -/
def deliver (mail : Channel Signal 16) : List Post → List Event × Channel Signal 16
  | [] => ([], mail)
  | .send signal :: posts =>
    let (delivery, mail) := mail.send signal
    let (events, mail) := deliver mail posts
    (.sent signal delivery :: events, mail)
  | .hangUp :: posts =>
    let (events, mail) := deliver mail.close posts
    (.hungUp :: events, mail)

/-- A clock that has read some signals. -/
structure Reading where
  clock : Clock
  /-- Whether the last one was to quit. -/
  quit : Bool
  events : List Event

/-- Handles signals in order, up to the first one to quit. -/
def Clock.read (c : Clock) : List Signal → Reading
  | [] => ⟨c, false, []⟩
  | .quit :: _ => ⟨c, true, [.received .quit]⟩
  | signal :: signals =>
    let rest := (c.handle signal).read signals
    { rest with
      events := .received signal :: (c.remarks signal).map .logged ++ rest.events }

namespace Session

variable {σ : Type}

def start (clock : Clock) (chip : σ) (before : List Post) : Progress σ :=
  let (events, mail) := deliver .new before
  { session := { clock, chip, mail, steps := 0, ticks := 0 }
    events
    ending := none }

variable [Clocked σ]

def tick (s : Session σ) (plan : Schedule) : Progress σ :=
  let (posted, mail) := deliver s.mail (plan.duringTick (s.ticks + 1))
  let turn := Clocked.tick s.chip (plan.elapsed (s.ticks + 1))
  { session := { s with chip := turn.state, mail, ticks := s.ticks + 1 }
    events := posted ++ .ticked :: turn.log.map .logged
    ending := none }

/-- Lets the chip make a step, which ends the run if it fails. -/
def step (s : Session σ) (plan : Schedule) : Progress σ :=
  let (posted, mail) := deliver s.mail (plan.duringStep (s.steps + 1))
  let turn := Clocked.step s.chip
  let events := posted ++ .stepped turn.result :: turn.log.map .logged
  let stepped := { s with chip := turn.state, mail, steps := s.steps + 1 }
  match turn.result with
  | .ok _ =>
    { session := { stepped with clock := { s.clock with cycles := s.clock.cycles + 1 } }
      events
      ending := none }
  | .error fault => { session := stepped, events, ending := some (.error fault) }

/-- Reads the signals that have arrived, which may end the run. -/
def readMail (s : Session σ) : Progress σ :=
  let (signals, mail) := s.mail.drain
  let reading := s.clock.read signals
  { session := { s with clock := reading.clock, mail }
    events := reading.events
    ending := if reading.quit || !mail.isOpen then some (.ok reading.clock.cycles) else none }

end Session

namespace Progress

variable {σ : Type}

/-- Goes on with a run unless it has ended. -/
def andThen (p : Progress σ) (next : Session σ → Progress σ) : Progress σ :=
  match p.ending with
  | some _ => p
  | none =>
    let rest := next p.session
    { rest with events := p.events ++ rest.events }

end Progress

namespace Session

variable {σ : Type} [Clocked σ]

def round (plan : Schedule) (s : Session σ) : Progress σ :=
  s.readMail.andThen fun s =>
    if s.clock.paused then s.tick plan
    else (s.step plan).andThen fun s => s.tick plan

/-- A run up to its end, but for no more than `count` rounds. -/
def rounds (plan : Schedule) : Nat → Session σ → Progress σ
  | 0, s => ⟨s, [], none⟩
  | count + 1, s => (s.round plan).andThen (rounds plan count)

end Session

/-- A run of `clock` on `chip`, for no more than `count` rounds. -/
def Clock.run {σ : Type} [Clocked σ] (clock : Clock) (chip : σ) (plan : Schedule) (count : Nat) :
    Progress σ :=
  (Session.start clock chip plan.before).andThen (Session.rounds plan count)

end Chip8
