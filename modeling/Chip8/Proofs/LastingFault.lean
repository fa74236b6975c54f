import Chip8.Proofs.LifeCycle
import Chip8.Proofs.SignalOrder

/-!
# Faults last

A run that fails leaves a machine that refuses every later step with the same fault
(`Machine.refusal?_runErrand`), until its host loads or starts a program. A clock gets no further
with it: whatever signals there are, a run lets time pass as long as the clock is paused, and ends
with the fault at the first step it calls for (`Work.Refused`, and `Clock.RefusedIn` for a run that
keeps to a plan). Neither the clock's cycles nor anything of the machine but its timers and its
keypad change (`fault_lasts`).
-/

namespace Chip8

/-- What a machine that does nothing says to a step. -/
def Mode.refusal? : Mode → Option Fault
  | .idle => some .notInitialized
  | .halted fault => some fault
  | _ => none

variable {δ κ : Type}

namespace Machine

variable [Display δ] [Keypad κ] {m : Machine δ κ} {a : Action δ κ} {fault : Fault}

theorem step_of_refusal (h : m.mode.refusal? = some fault) :
    m.step = ⟨m.polled, .error fault, []⟩ := by
  rcases hm : m.mode with _ | _ | x | f <;> rw [hm] at h <;> cases h
  · exact step_of_idle hm
  · exact step_of_halted hm

/-- Nothing but a load or a start gets a machine to do anything again. -/
theorem refusal?_act (h : m.mode.refusal? = some fault) (ha : a.restarts = false) :
    (m.act a).mode.refusal? = some fault := by
  have hmode := m.modeAfter_act ha
  generalize (m.act a).mode = mode at hmode ⊢
  cases hmode with
  | kept => exact h
  | halted _ hm _ _ | resumed _ hm _ =>
    rw [hm] at h
    cases h
  | waits _ hx =>
    rw [hx.mode] at h
    cases h

theorem refusal?_step_of_error (hr : m.step.result = .error fault) :
    m.step.state.mode.refusal? = some fault := by
  have hs := m.steps_step
  rw [hr] at hs
  generalize m.step.state = next at hs ⊢
  cases hs with
  | idle hm =>
    rw [show m.polled.mode = .idle from hm]
    rfl
  | halted hm =>
    rw [show m.polled.mode = .halted fault from hm]
    rfl
  | failed hm _ => rfl

end Machine

namespace Work

section Times

variable {σ : Type} [Clocked σ]

/-- The time that a move lets pass for the chip. -/
def time (w : Work σ) : Move → List Nat
  | .go elapsed => if w.stage = .ticking then [elapsed] else []
  | .post _ => []

def times (w : Work σ) : List Move → List Nat
  | [] => []
  | move :: moves => w.time move ++ (w.move move).times moves

end Times

/-- A read of the mail asks nothing of the chip and counts no cycle. If it ends the run, that has
not failed; if time is to pass at once, the clock is paused. -/
theorem read_cases {σ : Type} (w : Work σ) :
    w.read.chip = w.chip ∧ w.read.clock.cycles = w.clock.cycles
      ∧ (w.read.stage = .reading ∨ w.read.stage = .stepping
        ∨ w.read.stage = .ticking ∧ w.read.clock.paused = true
        ∨ w.read.stage = .ended (.ok w.clock.cycles)) := by
  rcases hqueue : w.mail.queue with _ | ⟨signal, rest⟩
  · rcases hopen : w.mail.isOpen with _ | _
    · rw [read_of_disconnected hqueue hopen]
      exact ⟨rfl, rfl, .inr (.inr (.inr rfl))⟩
    · rw [read_of_empty hqueue hopen]
      rcases w.clock.paused with _ | _
      · exact ⟨rfl, rfl, .inr (.inl rfl)⟩
      · exact ⟨rfl, rfl, .inr (.inr (.inl ⟨rfl, rfl⟩))⟩
  · rw [read_of_item hqueue]
    refine ⟨rfl, cycles_handle w.clock signal, ?_⟩
    by_cases hq : signal = .quit
    · exact .inr (.inr (.inr (if_pos hq)))
    · exact .inl (if_neg hq)

/-- What has become of a run of the clock on a chip that refuses every step, if `passed` is the time
that the run has let pass for it so far. -/
structure Refused [Keypad κ] (fault : Fault) (chip : Machine δ κ) (clock : Clock)
    (w : Work (Machine δ κ)) (passed : List Nat) : Prop where
  /-- There is one step if the run has failed, and none if it has not. -/
  calls : callsIn w.events = List.replicate passed.length .tick ++ lastCalls w.stage.ending?
  ended : ∀ ending, w.stage = .ended ending → ending = .error fault ∨ ending = .ok clock.cycles
  cycles : w.clock.cycles = clock.cycles
  chip : w.chip = { chip with
    timers := passed.foldl Timers.advance chip.timers
    keypad := if w.stage = .ended (.error fault) then Keypad.update chip.keypad else chip.keypad }
  /-- Time passes only while the clock is paused. -/
  paused : w.stage = .ticking → w.clock.paused = true

section Refused

variable [Keypad κ] {fault : Fault} {chip : Machine δ κ} {clock : Clock}
  {w next : Work (Machine δ κ)} {passed : List Nat}

theorem start_refused (fault : Fault) (chip : Machine δ κ) (clock : Clock) :
    (start clock chip).Refused fault chip clock [] :=
  ⟨rfl, nofun, rfl, rfl, nofun⟩

theorem Refused.post (h : w.Refused fault chip clock passed) (p : Post) :
    (w.post p).Refused fault chip clock passed :=
  ⟨(callsIn_post w p).trans h.calls, h.ended, h.cycles, h.chip, h.paused⟩

theorem Refused.calls_of_goes (h : w.Refused fault chip clock passed)
    (hs : w.stage.ending? = none) : callsIn w.events = List.replicate passed.length .tick := by
  rw [h.calls, hs]
  exact List.append_nil _

theorem Refused.chip_of_goes (h : w.Refused fault chip clock passed)
    (hs : w.stage.ending? = none) :
    w.chip = { chip with timers := passed.foldl Timers.advance chip.timers } := by
  rw [h.chip, if_neg fun hend => by simp [hend, Stage.ending?] at hs]

/-- A move that asks nothing of the chip. -/
theorem Refused.quiet (h : w.Refused fault chip clock passed) (hs : w.stage.ending? = none)
    (hcalls : callsIn next.events = callsIn w.events) (hchip : next.chip = w.chip)
    (hcycles : next.clock.cycles = w.clock.cycles)
    (hended : ∀ ending, next.stage = .ended ending → ending = .ok w.clock.cycles)
    (hpaused : next.stage = .ticking → next.clock.paused = true) :
    next.Refused fault chip clock passed := by
  have hfailed : next.stage ≠ .ended (.error fault) := fun hn => by cases hended _ hn
  have hlast : lastCalls next.stage.ending? = [] := by
    rcases hn : next.stage with _ | _ | _ | ending
    case ended =>
      rw [hended ending hn]
      rfl
    all_goals rfl
  refine ⟨?_, fun ending hn => .inr ?_, hcycles.trans h.cycles, ?_, hpaused⟩
  · rw [hcalls, h.calls_of_goes hs, hlast, List.append_nil]
  · rw [hended ending hn, h.cycles]
  · rw [hchip, h.chip_of_goes hs, if_neg hfailed]

theorem Refused.read (h : w.Refused fault chip clock passed) (hs : w.stage = .reading) :
    w.read.Refused fault chip clock passed := by
  have hgoes : w.stage.ending? = none := by rw [hs]; rfl
  obtain ⟨hchip, hcycles, hstage⟩ := read_cases w
  refine h.quiet hgoes (callsIn_read w) hchip hcycles (fun ending hn => ?_) (fun hn => ?_)
  · rcases hstage with hr | hr | ⟨hr, -⟩ | hr <;> cases hr.symm.trans hn
    rfl
  · rcases hstage with hr | hr | ⟨-, hpaused⟩ | hr
    · cases hr.symm.trans hn
    · cases hr.symm.trans hn
    · exact hpaused
    · cases hr.symm.trans hn

end Refused

section Moves

variable [Display δ] [Keypad κ] {fault : Fault} {chip : Machine δ κ} {clock : Clock}
  {w : Work (Machine δ κ)} {passed : List Nat}

theorem Refused.step (h : w.Refused fault chip clock passed) (hs : w.stage = .stepping)
    (hc : chip.mode.refusal? = some fault) :
    w.step.Refused fault chip clock passed ∧ w.step.stage = .ended (.error fault) := by
  have hgoes : w.stage.ending? = none := by rw [hs]; rfl
  have hchip := h.chip_of_goes hgoes
  have hstep : Clocked.step w.chip = ⟨w.chip.polled, .error fault, []⟩ := by
    refine Machine.step_of_refusal ?_
    rw [hchip]
    exact hc
  have hresult : (Clocked.step w.chip).result = .error fault := by rw [hstep]
  rw [step_of_error hresult, hstep]
  refine ⟨⟨?_, ?_, h.cycles, ?_, nofun⟩, rfl⟩
  · rw [callsIn_append, h.calls_of_goes hgoes]
    rfl
  · rintro _ ⟨⟩
    exact .inl rfl
  · rw [if_pos rfl, hchip]
    rfl

theorem Refused.tick (h : w.Refused fault chip clock passed) (hs : w.stage = .ticking)
    (elapsed : Nat) : (w.tick elapsed).Refused fault chip clock (passed ++ [elapsed]) := by
  have hgoes : w.stage.ending? = none := by rw [hs]; rfl
  refine ⟨?_, nofun, h.cycles, ?_, nofun⟩
  · rw [List.length_append, List.length_singleton, List.replicate_succ', Work.tick, callsIn_append,
      h.calls_of_goes hgoes, callsIn_call (e := .ticked) rfl]
    exact (List.append_nil _).symm
  · rw [if_neg nofun, List.foldl_append]
    exact congrArg (fun m : Machine δ κ => (m.tick elapsed).state) (h.chip_of_goes hgoes)

theorem Refused.move (h : w.Refused fault chip clock passed)
    (hc : chip.mode.refusal? = some fault) (move : Move) :
    (w.move move).Refused fault chip clock (passed ++ w.time move) := by
  cases move with
  | post p =>
    rw [time, List.append_nil]
    exact h.post p
  | go elapsed =>
    rcases hs : w.stage with _ | _ | _ | ending <;> simp only [Work.move, Work.go, time, hs]
    · simpa using h.read hs
    · simpa using (h.step hs hc).1
    · simpa using h.tick hs elapsed
    · simpa using h

theorem Refused.after (h : w.Refused fault chip clock passed)
    (hc : chip.mode.refusal? = some fault) (moves : List Move) :
    (w.after moves).Refused fault chip clock (passed ++ w.times moves) := by
  induction moves generalizing w passed with
  | nil =>
    rw [times, List.append_nil]
    exact h
  | cons move moves ih =>
    rw [times, ← List.append_assoc]
    exact ih (h.move hc move)

/-- A run that has failed leaves a chip that refuses steps. -/
theorem refusal?_move (h : ∀ f, w.stage = .ended (.error f) → w.chip.mode.refusal? = some f)
    (move : Move) :
    ∀ f, (w.move move).stage = .ended (.error f) → (w.move move).chip.mode.refusal? = some f := by
  intro f hf
  cases move with
  | post p => exact h f hf
  | go elapsed =>
    rcases hs : w.stage with _ | _ | _ | ending <;> simp only [Work.move, Work.go, hs] at hf ⊢
    · obtain ⟨-, -, hr | hr | ⟨hr, -⟩ | hr⟩ := read_cases w <;> cases hr.symm.trans hf
    · rcases hr : (Clocked.step w.chip).result with fault | outcome
      · rw [step_of_error hr] at hf ⊢
        cases hf
        exact Machine.refusal?_step_of_error hr
      · rw [step_of_ok hr] at hf
        cases hf
    · cases hf
    · exact h f (hs.trans hf)

theorem refusal?_after (h : ∀ f, w.stage = .ended (.error f) → w.chip.mode.refusal? = some f)
    (moves : List Move) :
    ∀ f, (w.after moves).stage = .ended (.error f) →
      (w.after moves).chip.mode.refusal? = some f := by
  induction moves generalizing w with
  | nil => exact h
  | cons move moves ih => exact ih (refusal?_move h move)

end Moves

end Work

section Errands

/-- A run that a chip is given to. -/
structure Shift where
  clock : Clock
  moves : List Move

namespace Shift

variable {σ : Type} [Clocked σ] (s : Shift)

def work (chip : σ) : Work σ :=
  (Work.start s.clock chip).after s.moves

/-- The time that the run lets pass for the chip. -/
def times (chip : σ) : List Nat :=
  (Work.start s.clock chip).times s.moves

end Shift

/-- What happens to a chip between two loads. -/
inductive Errand (δ κ : Type) where
  | run (shift : Shift)
  /-- A run that keeps to a plan, for no more than `count` rounds. -/
  | planned (clock : Clock) (plan : Schedule) (count : Nat)
  | act (a : Action δ κ)

def Errand.restarts : Errand δ κ → Bool
  | .act a => a.restarts
  | _ => false

/-- The time that the first ticks of a run let pass. -/
def Schedule.times (plan : Schedule) (ticks : Nat) : List Nat :=
  (List.range ticks).map fun k => plan.elapsed (k + 1)

theorem Schedule.times_succ (plan : Schedule) (ticks : Nat) :
    plan.times (ticks + 1) = plan.times ticks ++ [plan.elapsed (ticks + 1)] := by
  rw [times, List.range_succ, List.map_append]
  rfl

variable [Display δ] [Keypad κ]

namespace Errand

variable (m : Machine δ κ)

/-- How a run of the machine has ended, if it has. -/
def ending? : Errand δ κ → Option (Except Fault UInt64)
  | .run shift => (shift.work m).stage.ending?
  | .planned clock plan count => (clock.run m plan count).ending
  | .act _ => none

/-- The time that a run lets pass for the machine. -/
def times : Errand δ κ → List Nat
  | .run shift => shift.times m
  | .planned clock plan count => plan.times (clock.run m plan count).session.ticks
  | .act _ => []

end Errand

/-- What has become of a run that keeps to a plan, on a chip that refuses every step. -/
structure Clock.RefusedIn (clock : Clock) (chip : Machine δ κ) (plan : Schedule) (fault : Fault)
    (count : Nat) : Prop where
  calls : callsIn (clock.run chip plan count).events
    = List.replicate (clock.run chip plan count).session.ticks .tick
      ++ lastCalls (clock.run chip plan count).ending
  cycles : (clock.run chip plan count).session.clock.cycles = clock.cycles
  ended : ∀ ending, (clock.run chip plan count).ending = some ending →
    ending = .error fault ∨ ending = .ok clock.cycles
  /-- The run has ended unless the clock was paused in all rounds and nothing closed the run. -/
  ongoing : (clock.run chip plan count).ending = none → ∀ i < count,
    ¬ Closing (clock.run chip plan i).events
      ∧ ((acceptedIn (clock.run chip plan i).events).foldl handle clock).paused = true
  chip : (clock.run chip plan count).session.chip = { chip with
    timers := (plan.times (clock.run chip plan count).session.ticks).foldl Timers.advance
      chip.timers
    keypad := if (clock.run chip plan count).ending = some (.error fault)
      then Keypad.update chip.keypad else chip.keypad }

namespace Machine

def runErrand (m : Machine δ κ) : Errand δ κ → Machine δ κ
  | .run shift => (shift.work m).chip
  | .planned clock plan count => (clock.run m plan count).session.chip
  | .act a => m.act a

def afterErrands (m : Machine δ κ) (errands : List (Errand δ κ)) : Machine δ κ :=
  errands.foldl runErrand m

/-- The time that some runs in a row let pass for the machine. -/
def timesOver (m : Machine δ κ) : List (Errand δ κ) → List Nat
  | [] => []
  | e :: errands => e.times m ++ (m.runErrand e).timesOver errands

variable {m : Machine δ κ} {fault : Fault} {e : Errand δ κ} {errands : List (Errand δ κ)}

theorem refused_of_refusal (h : m.mode.refusal? = some fault) (shift : Shift) :
    (shift.work m).Refused fault m shift.clock (shift.times m) :=
  (Work.start_refused fault m shift.clock).after h shift.moves

/-- Whatever is asked of a machine that refuses steps, only time changes more of it than its
keypad. -/
theorem performed_of_refusal (h : m.mode.refusal? = some fault) {plan : Schedule}
    {done : List Interaction} {now : Machine δ κ} {steps ticks : Nat}
    (hp : Performed plan m done now steps ticks) :
    ∃ keypad, now
      = { m with timers := (plan.times ticks).foldl Timers.advance m.timers, keypad } := by
  induction hp with
  | start => exact ⟨m.keypad, rfl⟩
  | step _ ih =>
    obtain ⟨keypad, hnow⟩ := ih
    have hrefuses := congrArg (·.mode.refusal?) hnow
    have hstep := step_of_refusal (hrefuses.trans h)
    refine ⟨Keypad.update keypad, (congrArg Turn.state hstep).trans ?_⟩
    rw [polled, hnow]
  | tick _ ih =>
    obtain ⟨keypad, rfl⟩ := ih
    refine ⟨keypad, ?_⟩
    rw [plan.times_succ, List.foldl_append]
    rfl

theorem countP_isTick_refused (ticks : Nat) (ending : Option (Except Fault UInt64)) :
    (List.replicate ticks Call.tick ++ lastCalls ending).countP Call.isTick = ticks := by
  have hlast : (lastCalls ending).countP Call.isTick = 0 := by
    rcases ending with _ | _ | _ <;> rfl
  rw [List.countP_append, hlast, List.countP_replicate]
  rfl

theorem refusedIn_of_refusal (h : m.mode.refusal? = some fault) (clock : Clock)
    (plan : Schedule) (count : Nat) : clock.RefusedIn m plan fault count := by
  have hat := Clock.at_run clock m plan count
  have hr := (Work.start_refused fault m clock).after h (clock.moves m plan count)
  obtain ⟨rounds, hrounds, -⟩ := Clock.exists_runsIn clock m plan count
  obtain ⟨keypad, hchip⟩ := performed_of_refusal h hrounds.tallies.performed
  have hcalls := hr.calls
  rw [show _ = (clock.run m plan count).events from hat.events, hat.ending?] at hcalls
  have hticks := hrounds.tallies.counts.2
  rw [tickCallsIn, hcalls, countP_isTick_refused] at hticks
  rw [hticks] at hcalls
  have hkeypad := congrArg Machine.keypad (hchip.symm.trans (hat.chip.symm.trans hr.chip))
  simp only [← Stage.ending?_eq_some_iff, hat.ending?] at hkeypad
  refine ⟨hcalls, hat.clock ▸ hr.cycles, fun ending hend => ?_, fun hend i hi => ?_, ?_⟩
  · exact hr.ended ending (Stage.ending?_eq_some_iff.1 (hat.ending?.trans hend))
  · rw [← hrounds.ongoing hend] at hi
    have hround : rounds[i] = none := hrounds.getElem_eq_none (fun outcome => ?_) hi
    · have hsteps := hrounds.steps i hi
      rw [hround] at hsteps
      exact ⟨hrounds.goesOn i hi, by simpa using hsteps⟩
    · rw [hcalls, hend]
      simp [lastCalls]
  · rw [hchip, hkeypad]

theorem refusal?_afterErrands (h : m.mode.refusal? = some fault)
    (he : ∀ e ∈ errands, e.restarts = false) :
    (m.afterErrands errands).mode.refusal? = some fault := by
  induction errands generalizing m with
  | nil => exact h
  | cons e errands ih =>
    refine ih ?_ fun later hl => he later (List.mem_cons_of_mem e hl)
    cases e with
    | run shift =>
      rw [runErrand, (refused_of_refusal h shift).chip]
      exact h
    | planned clock plan count =>
      rw [runErrand, (refusedIn_of_refusal h clock plan count).chip]
      exact h
    | act a => exact refusal?_act h (he (.act a) List.mem_cons_self)

/-- Runs alone change nothing of a machine that refuses steps but its timers and its keypad. -/
theorem afterErrands_runs (h : m.mode.refusal? = some fault) (hruns : ∀ a, .act a ∉ errands) :
    ∃ keypad, m.afterErrands errands
      = { m with timers := (m.timesOver errands).foldl Timers.advance m.timers, keypad } := by
  induction errands generalizing m with
  | nil => exact ⟨m.keypad, rfl⟩
  | cons e errands ih =>
    have hrun : ∃ keypad, m.runErrand e
        = { m with timers := (e.times m).foldl Timers.advance m.timers, keypad } := by
      cases e with
      | run shift => exact ⟨_, (refused_of_refusal h shift).chip⟩
      | planned clock plan count => exact ⟨_, (refusedIn_of_refusal h clock plan count).chip⟩
      | act a => exact absurd List.mem_cons_self (hruns a)
    obtain ⟨keypad, hk⟩ := hrun
    have hrefuses := (congrArg (·.mode.refusal?) hk).trans h
    obtain ⟨last, hl⟩ := ih hrefuses fun a ha => hruns a (List.mem_cons_of_mem e ha)
    refine ⟨last, hl.trans ?_⟩
    rw [timesOver, List.foldl_append, hk]

/-- A run that has failed leaves a machine that refuses steps. -/
theorem refusal?_runErrand (h : e.ending? m = some (.error fault)) :
    (m.runErrand e).mode.refusal? = some fault := by
  have hstart : ∀ (clock : Clock) (f : Fault), (Work.start clock m).stage = .ended (.error f) →
      (Work.start clock m).chip.mode.refusal? = some f := fun clock f hf => by cases hf
  cases e with
  | run shift =>
    exact Work.refusal?_after (hstart shift.clock) shift.moves fault
      (Stage.ending?_eq_some_iff.1 h)
  | planned clock plan count =>
    have hat := Clock.at_run clock m plan count
    rw [runErrand, ← hat.chip]
    exact Work.refusal?_after (hstart clock) (clock.moves m plan count) fault (hat.stage_of_some h)
  | act a => cases h

end Machine

end Errands

/-- Once a run has failed, the chip refuses every step of every later run with the same fault, until
it is loaded or started. Such a run steps once at most, and then fails; it ends with the cycles that
its clock had before if it does not; and it goes on only as long as the clock is paused. In some
runs in a row nothing changes but the timers, by the time that passes, and what is in the keypad. -/
theorem Machine.fault_lasts [Display δ] [Keypad κ] {m : Machine δ κ} {first : Errand δ κ}
    {fault : Fault} (h : first.ending? m = some (.error fault)) :
    let faulted := m.runErrand first
    (∀ errands, (∀ e ∈ errands, e.restarts = false) →
      let chip := faulted.afterErrands errands
      (∀ next : Shift, (next.work chip).Refused fault chip next.clock (next.times chip)
        ∧ ((next.work chip).stage = .stepping →
          ∀ elapsed, ((next.work chip).go elapsed).stage = .ended (.error fault)))
      ∧ ∀ clock plan count, Clock.RefusedIn clock chip plan fault count)
    ∧ ∀ errands, (∀ a, .act a ∉ errands) → ∃ keypad, faulted.afterErrands errands
      = { faulted with
          timers := (faulted.timesOver errands).foldl Timers.advance faulted.timers
          keypad } := by
  intro faulted
  have hfaulted : faulted.mode.refusal? = some fault := refusal?_runErrand h
  refine ⟨fun errands he => ?_, fun errands hruns => afterErrands_runs hfaulted hruns⟩
  have hchip := refusal?_afterErrands hfaulted he
  refine ⟨fun next => ⟨refused_of_refusal hchip next, fun hs elapsed => ?_⟩,
    refusedIn_of_refusal hchip⟩
  rw [Work.go_of_stepping hs]
  exact ((refused_of_refusal hchip next).step hs hchip).2

/-- The second instruction is none. A paused clock lets time pass for the halted machine and its
host gives it a better program, which helps as little as a new clock. -/
theorem Machine.fault_lasts_pause :
    let m := headless [0x60, 0x01, 0xFF, 0xFF]
    let plan : Schedule := ⟨[], fun _ => [], fun _ => [], fun _ => 16666667⟩
    let first : Errand Headless WiredKeypad := .planned (.new .standard) plan 3
    let paused : Clock := { Clock.new .standard with paused := true, cycles := 7 }
    let lull : Errand Headless WiredKeypad :=
      .run ⟨paused, [.go 0, .go 50000000, .post .hangUp, .go 0]⟩
    let errands : List (Errand Headless WiredKeypad) :=
      [lull, .act (.onMemory fun _ => .holding [0x12, 0x00])]
    let faulted := m.runErrand first
    let chip := faulted.afterErrands errands
    let next : Shift := ⟨.new .standard, [.go 0]⟩
    first.ending? m = some (.error (.illegalInstruction 0xFFFF 0x202))
      ∧ ((next.work chip).go 0).stage = .ended (.error (.illegalInstruction 0xFFFF 0x202))
      ∧ (∀ plan, (paused.run chip plan 3).session.clock.cycles = 7)
      ∧ ∃ keypad, faulted.afterErrands [lull, first]
        = { faulted with
            timers := [50000000].foldl Timers.advance faulted.timers
            keypad } := by
  intro m plan first paused lull errands faulted chip next
  have hfails : first.ending? m = some (.error (.illegalInstruction 0xFFFF 0x202)) := by
    decide +kernel
  have hnone : ∀ e ∈ errands, e.restarts = false := by
    simp [errands, lull, Errand.restarts, Action.restarts]
  obtain ⟨hlater, hruns⟩ := fault_lasts hfails
  obtain ⟨hnext, hrun⟩ := hlater errands hnone
  have htimes : faulted.timesOver [lull, first] = [50000000] := by decide +kernel
  refine ⟨hfails, (hnext next).2 (by decide +kernel) 0, fun plan => (hrun paused plan 3).cycles, ?_⟩
  obtain ⟨keypad, hk⟩ := hruns [lull, first] (by simp [lull, first])
  exact ⟨keypad, htimes ▸ hk⟩

end Chip8
