import Chip8.Proofs.UnseenTime
import Mathlib.Data.List.Induction

/-!
# When time passes between steps

A step that uses no timer comes to the same before and after some time passes, and time that passes
in several bursts comes to the same as all of it at once (`Timers.advance_advance`). So a machine
that takes steps while time passes can be brought to its last state by all the steps first and all
the time then, and only their number and its total matter (`step_tick_commute`). What a step comes
to with other timers is `step_withTimers`.
-/

namespace Chip8

variable {δ κ : Type}

namespace Timers

theorem countDown_countDown (timer : UInt8) (ticks more : Nat) :
    countDown (countDown timer ticks) more = countDown timer (ticks + more) := by
  refine UInt8.toNat_inj.1 ?_
  simp only [toNat_countDown, Nat.sub_sub]

variable (t : Timers)

theorem advance_zero : t.advance 0 = t := by
  have hdebt := t.debt_lt
  have hdue : t.ticksDue 0 = 0 := by
    simp only [ticksDue, Nat.zero_mul, Nat.add_zero, Nat.div_eq_of_lt hdebt]
  refine Timers.ext (UInt8.toNat_inj.1 ?_) (UInt8.toNat_inj.1 ?_) ?_
  · simp only [advance, toNat_countDown, hdue, Nat.sub_zero]
  · simp only [advance, toNat_countDown, hdue, Nat.sub_zero]
  · simp only [advance, Nat.zero_mul, Nat.add_zero, Nat.mod_eq_of_lt hdebt]

theorem ticksDue_add (elapsed more : Nat) :
    t.ticksDue (elapsed + more) = t.ticksDue elapsed + (t.advance elapsed).ticksDue more := by
  simp only [ticksDue, advance, ticksPerSecond, nanosPerSecond]
  omega

/-- Time comes to the same in two bursts and at once, what is left of a tick and timers that have
run out included. -/
theorem advance_advance (elapsed more : Nat) :
    (t.advance elapsed).advance more = t.advance (elapsed + more) := by
  have hdue := t.ticksDue_add elapsed more
  refine Timers.ext ?_ ?_ ?_
  · rw [advance, advance, advance, hdue]
    exact countDown_countDown t.delay _ _
  · rw [advance, advance, advance, hdue]
    exact countDown_countDown t.sound _ _
  · simp only [advance, ticksPerSecond, nanosPerSecond]
    omega

end Timers

/-- Whether an instruction loads or sets a timer. -/
def Instruction.usesTimers : Instruction → Bool
  | .loadDelay _ | .setDelay _ | .setSound _ => true
  | _ => false

theorem Instruction.timersAfter_of_unused {i : Instruction} (h : i.usesTimers = false)
    (r : Registers) (timers : Timers) : i.timersAfter r timers = timers := by
  cases i with
  | setDelay x | setSound x => cases h
  | _ => rfl

/-- None of the instructions loads or sets a timer. -/
def TimersUnused (instructions : List Instruction) : Prop :=
  ∀ i ∈ instructions, i.usesTimers = false

theorem timersUnused_append {first later : List Instruction} :
    TimersUnused (first ++ later) ↔ TimersUnused first ∧ TimersUnused later :=
  List.forall_mem_append

theorem TimersUnused.delayUnread {instructions : List Instruction} (h : TimersUnused instructions) :
    DelayUnread instructions :=
  fun x hx => Bool.noConfusion (h (.loadDelay x) hx)

/-- What drives a machine whose host does not interfere. -/
inductive Beat where
  | step
  | tick (elapsed : Nat)
  deriving DecidableEq, Repr

namespace Beat

def request : Beat → Request δ κ Unit
  | .step => .step
  | .tick elapsed => .tick elapsed

def action (b : Beat) : Action δ κ :=
  b.request.action

def elapsed : Beat → Nat
  | .step => 0
  | .tick elapsed => elapsed

end Beat

def stepsIn (beats : List Beat) : Nat :=
  beats.count .step

/-- All the time that passes. -/
def timeIn : List Beat → Nat
  | [] => 0
  | b :: beats => b.elapsed + timeIn beats

section Beats

variable (beats : List Beat)

theorem stepsIn_concat_step : stepsIn (beats ++ [.step]) = stepsIn beats + 1 := by
  simp [stepsIn]

theorem stepsIn_concat_tick (elapsed : Nat) :
    stepsIn (beats ++ [.tick elapsed]) = stepsIn beats := by
  simp [stepsIn]

theorem timeIn_concat (b : Beat) : timeIn (beats ++ [b]) = timeIn beats + b.elapsed := by
  induction beats with
  | nil => exact Nat.add_comm b.elapsed 0
  | cons _ beats ih => rw [List.cons_append, timeIn, timeIn, ih, Nat.add_assoc]

theorem timeless_beats :
    timeless (beats.map (Beat.request (δ := δ) (κ := κ)))
      = List.replicate (stepsIn beats) .step := by
  induction beats with
  | nil => rfl
  | cons b beats ih =>
    cases b with
    | step =>
      rw [List.map_cons, stepsIn, List.count_cons_self, List.replicate_succ, ← stepsIn, ← ih]
      exact timeless_cons rfl
    | tick elapsed =>
      rw [List.map_cons, stepsIn, List.count_cons_of_ne Beat.noConfusion, ← stepsIn, ← ih]
      exact timeless_cons_of_tick rfl

end Beats

namespace Machine

variable [Display δ] [Keypad κ] {m : Machine δ κ}

theorem step_tick (h : ∀ i, m.upcoming? = some i → i.usesTimers = false) (elapsed : Nat) :
    (m.tick elapsed).state.step
      = ⟨(m.step.state.tick elapsed).state, m.step.result, m.step.log⟩ := by
  have hunread : ∀ x, m.upcoming? ≠ some (.loadDelay x) :=
    fun x hx => Bool.noConfusion (h (.loadDelay x) hx)
  have hkept : ∀ timers, m.timersAfter timers = timers := by
    intro timers
    rw [timersAfter]
    rcases hi : m.upcoming? with _ | i
    · rfl
    · exact Instruction.timersAfter_of_unused (h i hi) m.registers timers
  have hstep := step_withTimers hunread (m.timers.advance elapsed)
  have htimers : m.step.state.timers = m.timers := m.timers_step.trans (hkept m.timers)
  rw [hkept] at hstep
  rw [tick, tick, htimers]
  exact hstep

variable {beats other : List Beat}

/-- What the steps execute does not depend on the time that passes between them, unless they load
the delay timer. -/
theorem executed_beats (h : DelayUnread (m.executed (beats.map Beat.action))
      ∨ DelayUnread (m.executed (List.replicate (stepsIn beats) .step))) :
    m.executed (beats.map Beat.action) = m.executed (List.replicate (stepsIn beats) .step) := by
  have hactions : (beats.map (Beat.request (δ := δ) (κ := κ))).map Request.action
      = beats.map Beat.action := List.map_map
  have hsteps : (timeless (beats.map (Beat.request (δ := δ) (κ := κ)))).map Request.action
      = List.replicate (stepsIn beats) .step := by
    rw [timeless_beats, List.map_replicate]
    rfl
  rw [← hactions, ← hsteps] at h ⊢
  obtain ⟨hsame, -, -⟩ := serve_timeless m.timers h
  exact hsame.symm

/-- The steps can come first and all the time after them. -/
theorem after_beats (h : TimersUnused (m.executed (beats.map Beat.action))) :
    m.after (beats.map Beat.action)
      = ((m.after (List.replicate (stepsIn beats) .step)).tick (timeIn beats)).state := by
  induction beats using List.reverseRecOn with
  | nil => exact (congrArg (fun timers => { m with timers }) m.timers.advance_zero).symm
  | append_singleton beats b ih =>
    rw [List.map_append, executed_append, timersUnused_append] at h
    obtain ⟨hsoFar, hlast⟩ := h
    rw [ih hsoFar] at hlast
    rw [List.map_append, after_append, ih hsoFar]
    cases b with
    | step =>
      have hunused : ∀ i, (m.after (List.replicate (stepsIn beats) .step)).upcoming? = some i →
          i.usesTimers = false :=
        fun i hi => hlast i (List.mem_append_left _ (Option.mem_toList.2 hi))
      rw [stepsIn_concat_step, timeIn_concat, List.replicate_succ', after_concat]
      exact congrArg Turn.state (step_tick hunused (timeIn beats))
    | tick elapsed =>
      rw [stepsIn_concat_tick, timeIn_concat, tick, tick, ← Timers.advance_advance]
      rfl

/-- Two runs with the same number of steps execute the same. -/
theorem executed_other (h : TimersUnused (m.executed (beats.map Beat.action)))
    (hsteps : stepsIn other = stepsIn beats) :
    m.executed (other.map Beat.action) = m.executed (beats.map Beat.action) := by
  have hi := executed_beats (.inl h.delayUnread)
  have hunread := h.delayUnread
  rw [hi, ← hsteps] at hunread
  rw [executed_beats (.inr hunread), hi, hsteps]

/-- Unless a machine is about to execute an instruction that uses the timers, a step comes to the
same before and after a burst of time. If none of the instructions that are executed in a run uses
them, its last state is that of all the steps followed by all the time, and so that of any other run
with as many steps and as much time. -/
theorem step_tick_commute (m : Machine δ κ) :
    ((∀ i, m.mode = .running → m.fetch = .ok i → i.usesTimers = false) → ∀ elapsed,
        (m.tick elapsed).state.step
          = ⟨(m.step.state.tick elapsed).state, m.step.result, m.step.log⟩)
      ∧ ∀ beats : List Beat, TimersUnused (m.executed (beats.map Beat.action)) →
        m.after (beats.map Beat.action)
            = ((m.after (List.replicate (stepsIn beats) .step)).tick (timeIn beats)).state
          ∧ ∀ other : List Beat, stepsIn other = stepsIn beats → timeIn other = timeIn beats →
            m.executed (other.map Beat.action) = m.executed (beats.map Beat.action)
              ∧ m.after (other.map Beat.action) = m.after (beats.map Beat.action) := by
  refine ⟨fun h elapsed => step_tick (fun i hi => ?_) elapsed, fun beats h => ⟨after_beats h, ?_⟩⟩
  · obtain ⟨hm, hf, -⟩ := upcoming?_eq_some_iff.1 hi
    exact h i hm hf
  · intro other hsteps htime
    have hsame := executed_other h hsteps
    have h' : TimersUnused (m.executed (other.map Beat.action)) := hsame ▸ h
    refine ⟨hsame, ?_⟩
    rw [after_beats h, after_beats h', hsteps, htime]

/-- A program that counts to two and then halts at a word that is no instruction. The tone beside it
ends while the machine is halted in one run, and before its first step in the other. -/
theorem step_tick_commute_halted :
    let m := (headless [0x70, 0x01, 0x70, 0x01, 0xFF, 0xFF]).withTimers (Timers.zero.setSound 2)
    let beats := [Beat.step, .tick 16666667, .step, .step, .tick 16666667]
    let other := [Beat.tick 33333334, .step, .step, .tick 0, .step]
    (m.tick 33333334).state.step
        = ⟨(m.step.state.tick 33333334).state, .ok .executed, m.step.log⟩
      ∧ (m.after (beats.map Beat.action)).mode = .halted (.illegalInstruction 0xFFFF 0x204)
      ∧ (m.after (beats.map Beat.action)).timers.sound = 0
      ∧ m.after (other.map Beat.action) = m.after (beats.map Beat.action) := by
  intro m beats other
  have hf : m.fetch = .ok (.addValue 0 1) := by decide +kernel
  have hi : m.executed (beats.map Beat.action) = [.addValue 0 1, .addValue 0 1] := by decide +kernel
  have hunused : TimersUnused (m.executed (beats.map Beat.action)) := by
    intro i hexecuted
    obtain rfl : i = .addValue 0 1 := by simpa [hi] using hexecuted
    rfl
  obtain ⟨hstep, hruns⟩ := step_tick_commute m
  obtain ⟨-, hsame⟩ := hruns beats hunused
  have hrunning : ∀ i, m.mode = .running → m.fetch = .ok i → i.usesTimers = false := by
    intro i _ hi
    obtain rfl : .addValue 0 1 = i := Except.ok.inj (hf.symm.trans hi)
    rfl
  have hresult : m.step.result = .ok .executed := by decide +kernel
  exact ⟨hresult ▸ hstep hrunning 33333334, by decide +kernel, by decide +kernel,
    (hsame other rfl rfl).2⟩

end Machine

end Chip8
