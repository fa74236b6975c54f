import Chip8.Proofs.Rounds

/-!
# Runs in small moves

The rounds of a session read all signals in one go. Here a clock at work receives one signal at a
time, and something can be posted between any two moves of it, also while it is reading. A run that
keeps to a plan is one way that this can go: the plan says what is posted when (`Clock.moves`), and
however long the run is followed, these moves lead to where it has got (`Clock.at_run`).
-/

namespace Chip8

/-- What a clock at work is about to do. -/
inductive Stage where
  | reading
  | stepping
  | ticking
  /-- The run has ended. -/
  | ended (ending : Except Fault UInt64)
  deriving DecidableEq

def Stage.ending? : Stage → Option (Except Fault UInt64)
  | .ended ending => some ending
  | _ => none

theorem Stage.ending?_eq_some_iff {stage : Stage} {ending : Except Fault UInt64} :
    stage.ending? = some ending ↔ stage = .ended ending := by
  cases stage <;> simp [ending?]

/-- A run at any point of it, with its history. -/
structure Work (σ : Type) where
  clock : Clock
  chip : σ
  mail : Channel Signal 16
  events : List Event
  stage : Stage

inductive Move where
  | post (post : Post)
  /-- The clock does what it is about to do. If that is a tick, some nanoseconds pass. -/
  | go (elapsed : Nat)
  deriving DecidableEq, Repr

namespace Move

def isGo : Move → Bool
  | .go _ => true
  | .post _ => false

def post? : Move → Option Post
  | .go _ => none
  | .post p => some p

end Move

/-- The moves by which a clock reads its mail: one for each signal up to one to quit, and one to
find that there is none left. -/
def readMoves : List Signal → List Move
  | [] => [.go 0]
  | .quit :: _ => [.go 0]
  | _ :: signals => .go 0 :: readMoves signals

theorem readMoves_cons {signal : Signal} (h : signal ≠ .quit) (signals : List Signal) :
    readMoves (signal :: signals) = .go 0 :: readMoves signals := by
  cases signal with
  | quit => exact absurd rfl h
  | _ => rfl

namespace Work

variable {σ : Type}

def start (clock : Clock) (chip : σ) : Work σ :=
  ⟨clock, chip, .new, [], .reading⟩

def post (w : Work σ) (p : Post) : Work σ :=
  let (events, mail) := deliver w.mail [p]
  { w with mail, events := w.events ++ events }

/-- Receives a signal and handles it, or finds that there is none. -/
def read (w : Work σ) : Work σ :=
  let (reception, mail) := w.mail.receive
  match reception with
  | .item signal =>
    { w with
      clock := w.clock.handle signal
      mail
      events := w.events ++ .received signal :: (w.clock.remarks signal).map .logged
      stage := if signal = .quit then .ended (.ok w.clock.cycles) else .reading }
  | .empty => { w with stage := if w.clock.paused then .ticking else .stepping }
  | .disconnected => { w with stage := .ended (.ok w.clock.cycles) }

variable [Clocked σ]

def step (w : Work σ) : Work σ :=
  let turn := Clocked.step w.chip
  let events := w.events ++ .stepped turn.result :: turn.log.map .logged
  match turn.result with
  | .ok _ =>
    { w with
      clock := { w.clock with cycles := w.clock.cycles + 1 }
      chip := turn.state
      events
      stage := .ticking }
  | .error fault => { w with chip := turn.state, events, stage := .ended (.error fault) }

def tick (w : Work σ) (elapsed : Nat) : Work σ :=
  let turn := Clocked.tick w.chip elapsed
  { w with
    chip := turn.state
    events := w.events ++ .ticked :: turn.log.map .logged
    stage := .reading }

def go (w : Work σ) (elapsed : Nat) : Work σ :=
  match w.stage with
  | .reading => w.read
  | .stepping => w.step
  | .ticking => w.tick elapsed
  | .ended _ => w

def move (w : Work σ) : Move → Work σ
  | .post p => w.post p
  | .go elapsed => w.go elapsed

def after (w : Work σ) (moves : List Move) : Work σ :=
  moves.foldl move w

variable {w : Work σ} {clock : Clock} {chip : σ} {mail : Channel Signal 16} {events : List Event}

theorem after_append (w : Work σ) (moves more : List Move) :
    w.after (moves ++ more) = (w.after moves).after more :=
  List.foldl_append

theorem after_go (w : Work σ) (elapsed : Nat) (moves : List Move) :
    w.after (.go elapsed :: moves) = (w.go elapsed).after moves := rfl

theorem go_of_reading (h : w.stage = .reading) (elapsed : Nat) : w.go elapsed = w.read := by
  rw [go, h]

theorem go_of_stepping (h : w.stage = .stepping) (elapsed : Nat) : w.go elapsed = w.step := by
  rw [go, h]

theorem go_of_ticking (h : w.stage = .ticking) (elapsed : Nat) : w.go elapsed = w.tick elapsed := by
  rw [go, h]

theorem go_of_ended {ending : Except Fault UInt64} (h : w.stage = .ended ending) (elapsed : Nat) :
    w.go elapsed = w := by
  rw [go, h]

omit [Clocked σ] in
theorem post_hangUp (w : Work σ) :
    w.post .hangUp = { w with mail := w.mail.close, events := w.events ++ [.hungUp] } := rfl

omit [Clocked σ] in
theorem post_send (w : Work σ) (signal : Signal) :
    w.post (.send signal)
      = { w with
          mail := (w.mail.send signal).2
          events := w.events ++ [.sent signal (w.mail.send signal).1] } := rfl

theorem after_posts (w : Work σ) (posts : List Post) :
    w.after (posts.map .post)
      = { w with
          mail := (deliver w.mail posts).2
          events := w.events ++ (deliver w.mail posts).1 } := by
  induction posts generalizing w with
  | nil => rw [deliver, List.append_nil]; rfl
  | cons p posts ih =>
    rw [List.map_cons, after, List.foldl_cons, ← after, ih]
    cases p with
    | send signal =>
      rw [move, post_send, deliver_send, List.append_assoc]
      rfl
    | hangUp =>
      rw [move, post_hangUp, deliver_hangUp, List.append_assoc]
      rfl

omit [Clocked σ] in
theorem read_of_item {signal : Signal} {rest : List Signal} (h : w.mail.queue = signal :: rest) :
    w.read
      = { w with
          clock := w.clock.handle signal
          mail := { w.mail with queue := rest }
          events := w.events ++ .received signal :: (w.clock.remarks signal).map .logged
          stage := if signal = .quit then .ended (.ok w.clock.cycles) else .reading } := by
  simp only [read, Channel.receive, h]

omit [Clocked σ] in
theorem read_of_empty (h : w.mail.queue = []) (ho : w.mail.isOpen = true) :
    w.read = { w with stage := if w.clock.paused then .ticking else .stepping } := by
  simp only [read, Channel.receive, h, ho, if_true]

omit [Clocked σ] in
theorem read_of_disconnected (h : w.mail.queue = []) (ho : w.mail.isOpen = false) :
    w.read = { w with stage := .ended (.ok w.clock.cycles) } := by
  simp only [read, Channel.receive, h, ho, Bool.false_eq_true, if_false]

theorem step_of_ok {outcome : Outcome} (h : (Clocked.step w.chip).result = .ok outcome) :
    w.step
      = { w with
          clock := { w.clock with cycles := w.clock.cycles + 1 }
          chip := (Clocked.step w.chip).state
          events := w.events ++ .stepped (.ok outcome) :: (Clocked.step w.chip).log.map .logged
          stage := .ticking } := by
  simp only [step, h]

theorem step_of_error {fault : Fault} (h : (Clocked.step w.chip).result = .error fault) :
    w.step
      = { w with
          chip := (Clocked.step w.chip).state
          events := w.events ++ .stepped (.error fault) :: (Clocked.step w.chip).log.map .logged
          stage := .ended (.error fault) } := by
  simp only [step, h]

end Work

section Plan

variable {σ : Type}

/-- The moves up to the next stage of a run that keeps to a plan. -/
def Schedule.moves (plan : Schedule) (w : Work σ) : List Move :=
  match w.stage with
  | .reading => readMoves w.mail.queue
  | .stepping => (plan.duringStep (stepCallsIn w.events + 1)).map .post ++ [.go 0]
  | .ticking =>
    (plan.duringTick (tickCallsIn w.events + 1)).map .post
      ++ [.go (plan.elapsed (tickCallsIn w.events + 1))]
  | .ended _ => []

variable [Clocked σ]

/-- Goes on to the next stage, as the plan has it. -/
def Work.advance (w : Work σ) (plan : Schedule) : Work σ :=
  w.after (plan.moves w)

/-- The moves of a round: those that read the mail, those of a step unless the clock is paused, and
those of a tick unless the run has ended. -/
def Schedule.roundMoves (plan : Schedule) (w : Work σ) : List Move :=
  let read := w.advance plan
  let called := read.advance plan
  plan.moves w ++ plan.moves read ++ if called.stage = .ticking then plan.moves called else []

/-- The moves of a run that keeps to a plan, for no more than `count` rounds. -/
def Clock.moves (clock : Clock) (chip : σ) (plan : Schedule) : Nat → List Move
  | 0 => plan.before.map .post
  | count + 1 =>
    let moves := clock.moves chip plan count
    moves ++ plan.roundMoves ((Work.start clock chip).after moves)

variable {w : Work σ} {plan : Schedule}

theorem advance_of_ended {ending : Except Fault UInt64} (h : w.stage = .ended ending)
    (plan : Schedule) : w.advance plan = w := by
  rw [Work.advance, Schedule.moves, h]
  rfl

theorem after_roundMoves : w.after (plan.roundMoves w) =
    if ((w.advance plan).advance plan).stage = .ticking
    then ((w.advance plan).advance plan).advance plan else (w.advance plan).advance plan := by
  rw [Schedule.roundMoves, Work.after_append, Work.after_append]
  split_ifs <;> rfl

theorem after_roundMoves_of_ended {ending : Except Fault UInt64}
    (h : (w.advance plan).stage = .ended ending) :
    w.after (plan.roundMoves w) = w.advance plan := by
  rw [after_roundMoves, advance_of_ended h, h]
  rfl

end Plan

/-- The work is where a part of a run has got to that began with some history. If the run goes on,
it does so with `next`. -/
structure Work.At {σ : Type} (w : Work σ) (events : List Event) (p : Progress σ) (next : Stage) :
    Prop where
  clock : w.clock = p.session.clock
  chip : w.chip = p.session.chip
  events : w.events = events ++ p.events
  stage : w.stage = p.ending.elim next .ended
  /-- A run that has ended may have left signals unread, of which a session keeps none. -/
  mail : p.ending = none → w.mail = p.session.mail

namespace Work.At

variable {σ : Type} {w : Work σ} {events : List Event} {p q : Progress σ} {next : Stage}

theorem behind (h : w.At (events ++ p.events) q next) :
    w.At events { q with events := p.events ++ q.events } next :=
  { h with events := h.events.trans (List.append_assoc ..) }

theorem stage_of_none (h : w.At events p next) (hend : p.ending = none) : w.stage = next := by
  rw [h.stage, hend]
  rfl

theorem stage_of_some (h : w.At events p next) {result : Except Fault UInt64}
    (hend : p.ending = some result) : w.stage = .ended result := by
  rw [h.stage, hend]
  rfl

theorem ending? (h : w.At events p .reading) : w.stage.ending? = p.ending := by
  rw [h.stage]
  rcases p.ending <;> rfl

/-- A part of a run that has ended is not gone on with, whatever the stage would be. -/
theorem of_some (h : w.At events p next) {result : Except Fault UInt64}
    (hend : p.ending = some result) (stage : Stage) : w.At events p stage :=
  { h with stage := by rw [h.stage, hend]; rfl }

end Work.At

namespace Session

variable {σ : Type} {s : Session σ} {p : Progress σ} {stage : Stage} {clock : Clock} {chip : σ}
  {plan : Schedule} {events : List Event}

def work (s : Session σ) (events : List Event) (stage : Stage) : Work σ :=
  ⟨s.clock, s.chip, s.mail, events, stage⟩

theorem work_of_at {w : Work σ} (h : w.At events p stage) (hend : p.ending = none) :
    w = p.session.work (events ++ p.events) stage := by
  have hstage := h.stage_of_none hend
  obtain ⟨clock, chip, mail, history, stage⟩ := w
  obtain ⟨rfl, rfl, rfl, -, hmail⟩ := h
  obtain rfl := hmail hend
  subst hstage
  rfl

theorem readMail_cons {signal : Signal} {signals : List Signal}
    (hqueue : s.mail.queue = signal :: signals) (hq : signal ≠ .quit) :
    s.readMail =
      let rest := readMail
        { s with clock := s.clock.handle signal, mail := { s.mail with queue := signals } }
      { rest with
        events := .received signal :: (s.clock.remarks signal).map .logged ++ rest.events } := by
  simp only [readMail, Channel.drain, hqueue, read_cons s.clock hq]
  rfl

variable [Clocked σ]

theorem at_tick (h : s.Tallies clock chip plan events) :
    ((s.work events .ticking).advance plan).At events (s.tick plan) .reading := by
  have hmoves : plan.moves (s.work events .ticking)
      = (plan.duringTick (s.ticks + 1)).map .post ++ [.go (plan.elapsed (s.ticks + 1))] := by
    rw [← h.counts.2]
    rfl
  rw [Work.advance, hmoves, Work.after_append, Work.after_posts, Work.after_go,
    Work.go_of_ticking rfl]
  exact ⟨rfl, rfl, List.append_assoc .., rfl, fun _ => rfl⟩

theorem at_step (h : s.Tallies clock chip plan events) :
    ((s.work events .stepping).advance plan).At events (s.step plan) .ticking := by
  have hmoves : plan.moves (s.work events .stepping)
      = (plan.duringStep (s.steps + 1)).map .post ++ [.go 0] := by
    rw [← h.counts.1]
    rfl
  rw [Work.advance, hmoves, Work.after_append, Work.after_posts, Work.after_go,
    Work.go_of_stepping rfl]
  rcases hr : (Clocked.step s.chip).result with fault | outcome
  · rw [Work.step_of_error hr]
    simp only [step, hr]
    exact ⟨rfl, rfl, List.append_assoc .., rfl,
      fun hnone => absurd hnone (Option.some_ne_none _)⟩
  · rw [Work.step_of_ok hr]
    simp only [step, hr]
    exact ⟨rfl, rfl, List.append_assoc .., rfl, fun _ => rfl⟩

theorem at_readMail (s : Session σ) (events : List Event) (plan : Schedule) :
    ((s.work events .reading).advance plan).At events s.readMail
      (if s.readMail.session.clock.paused then .ticking else .stepping) := by
  obtain ⟨clock, chip, ⟨queue, isOpen⟩, steps, ticks⟩ := s
  change Work.At ((work _ events .reading).after (readMoves queue)) _ _ _
  induction queue generalizing clock events with
  | nil =>
    rw [readMoves, Work.after_go, Work.go_of_reading rfl]
    cases isOpen with
    | false =>
      rw [Work.read_of_disconnected rfl rfl]
      exact ⟨rfl, rfl, (List.append_nil events).symm, rfl, nofun⟩
    | true =>
      rw [Work.read_of_empty rfl rfl]
      exact ⟨rfl, rfl, (List.append_nil events).symm, rfl, fun _ => rfl⟩
  | cons signal queue ih =>
    by_cases hq : signal = .quit
    · subst hq
      rw [readMoves, Work.after_go, Work.go_of_reading rfl, Work.read_of_item rfl]
      exact ⟨rfl, rfl, rfl, rfl, nofun⟩
    · have h := ih (events ++ .received signal :: (clock.remarks signal).map .logged)
        (clock.handle signal)
      rw [readMoves_cons hq, Work.after_go, Work.go_of_reading rfl, Work.read_of_item rfl,
        if_neg hq, readMail_cons rfl hq]
      exact ⟨h.clock, h.chip, h.events.trans (List.append_assoc ..), h.stage, h.mail⟩

theorem at_round (h : s.Follows clock chip plan events) :
    ((s.work events .reading).after (plan.roundMoves (s.work events .reading))).At events
      (s.round plan) .reading := by
  have hat := at_readMail s events plan
  by_cases hc : Closing events
  · have hend := h.readMail_of_closing hc
    rw [after_roundMoves_of_ended (hat.stage_of_some hend), round, Progress.andThen_of_some hend]
    exact hat.of_some hend _
  · obtain ⟨hend, hread, -, -⟩ := h.readMail hc
    rw [after_roundMoves, work_of_at hat hend, round, Progress.andThen_of_none hend]
    refine Work.At.behind ?_
    by_cases hp : s.readMail.session.clock.paused = true
    · have htick := at_tick hread.toTallies
      rw [if_pos hp, if_pos hp, if_neg]
      · exact htick
      · rw [htick.stage_of_none rfl]
        exact fun h => by cases h
    · have hstep := at_step hread.toTallies
      rw [if_neg hp, if_neg hp]
      rcases hr : (Clocked.step s.readMail.session.chip).result with fault | outcome
      · obtain ⟨hsend, -⟩ := hread.step_error hr
        rw [Progress.andThen_of_some hsend, if_neg]
        · exact hstep.of_some hsend _
        · rw [hstep.stage_of_some hsend]
          exact fun h => by cases h
      · obtain ⟨hsend, hnext, -⟩ := hread.step_ok hr
        rw [if_pos (hstep.stage_of_none hsend), Progress.andThen_of_none hsend,
          work_of_at hstep hsend]
        exact (at_tick hnext.toTallies).behind

end Session

/-- The moves that a plan has for a run lead to where it gets. -/
theorem Clock.at_run {σ : Type} [Clocked σ] (clock : Clock) (chip : σ) (plan : Schedule)
    (count : Nat) :
    ((Work.start clock chip).after (clock.moves chip plan count)).At []
      (clock.run chip plan count) .reading := by
  induction count with
  | zero =>
    rw [run_zero, Clock.moves, Work.after_posts]
    exact ⟨rfl, rfl, rfl, rfl, fun _ => rfl⟩
  | succ count ih =>
    rw [Clock.moves, Work.after_append, run_succ]
    rcases hend : (clock.run chip plan count).ending with _ | result
    · obtain ⟨-, -, hfollows⟩ := exists_runsIn clock chip plan count
      rw [Session.work_of_at ih hend, Progress.andThen_of_none hend]
      exact Work.At.behind (p := clock.run chip plan count) (Session.at_round (hfollows hend))
    · have hadvance := advance_of_ended (ih.stage_of_some hend) plan
      rw [Progress.andThen_of_some hend, after_roundMoves_of_ended, hadvance]
      · exact ih
      · rw [hadvance]
        exact ih.stage_of_some hend

end Chip8
