import Chip8.Proofs.Subroutine

/-!
# Machines with other timers and another display

A program learns of the timers by loading the delay, and of the display by the answer to a draw
(`Instruction.glimpse?`); no other instruction reads anything of either. So a machine that is fitted
with other timers and another display makes the same step as before if it has the same glimpse of
them (`step_refit`): the result, the log and all other parts of the state are the same. Loading a
program asks nothing of them at all (`load_refit`).
-/

namespace Chip8

variable {δ ε κ : Type}

namespace Instruction

/-- What an instruction learns of the timers or the display: the delay, or whether a draw hit. -/
def glimpse? [Display δ] (i : Instruction) (m : Machine δ κ) : Option (UInt8 ⊕ Bool) :=
  match i with
  | .loadDelay _ => some (.inl m.timers.delay)
  | .draw x y rows => some (.inr (m.drawing x y rows).1)
  | _ => none

/-- The timers after an instruction, if they were `timers` before it. -/
def timersAfter (i : Instruction) (r : Registers) (timers : Timers) : Timers :=
  match i with
  | .setDelay x => timers.setDelay (r.get x)
  | .setSound x => timers.setSound (r.get x)
  | _ => timers

end Instruction

namespace Machine

/-- The machine with other timers and another display. -/
def refit (m : Machine δ κ) (timers : Timers) (display : ε) : Machine ε κ :=
  { m with timers, display }

/-- What the next step learns of the timers or the display. -/
def glimpse? [Display δ] (m : Machine δ κ) : Option (UInt8 ⊕ Bool) :=
  m.upcoming?.bind fun i => i.glimpse? m

/-- The timers after the next step, if they were `timers` before it. -/
def timersAfter (m : Machine δ κ) (timers : Timers) : Timers :=
  m.upcoming?.elim timers fun i => i.timersAfter m.registers timers

/-- The display after the next step. -/
def displayAfter [Display δ] (m : Machine δ κ) : δ :=
  m.upcoming?.elim m.display fun i => i.displayAfter m

section Execution

variable [Display δ] [Display ε] [Keypad κ] {m : Machine δ κ} {timers : Timers} {display : ε}
  {i : Instruction}

theorem execute_refit (h : i.glimpse? (m.refit timers display) = i.glimpse? m) :
    i.execute (m.refit timers display)
      = (i.execute m).map fun next => next.refit (i.timersAfter m.registers timers)
        (i.displayAfter (m.refit timers display)) := by
  cases i with
  | ret =>
    simp only [Instruction.execute, refit]
    cases m.stack.pop <;> rfl
  | call a =>
    simp only [Instruction.execute, refit]
    cases m.stack.push (m.registers.pc + 2) <;> rfl
  | storeBcd x =>
    simp only [Instruction.execute, refit]
    cases m.memory.write m.registers.index (decimalDigits (m.registers.get x)) <;> rfl
  | storeRegisters x =>
    simp only [Instruction.execute, refit]
    cases m.memory.write m.registers.index (m.registers.upTo x) <;> rfl
  | loadRegisters x =>
    simp only [Instruction.execute, refit]
    cases m.memory.read m.registers.index (x.val + 1) <;> rfl
  | loadDelay x =>
    have hdelay : timers.delay = m.timers.delay := Sum.inl.inj (Option.some.inj h)
    simp only [Instruction.execute, refit, hdelay]
    rfl
  | draw x y rows =>
    have hhit : ((m.refit timers display).drawing x y rows).1 = (m.drawing x y rows).1 :=
      Sum.inr.inj (Option.some.inj h)
    simp only [Instruction.execute, refit]
    rcases hread : m.memory.read m.registers.index rows.val with fault | sprite
    · rfl
    · rw [Memory.eq_bytesFrom_of_read hread]
      simp only [drawing, refit] at hhit
      simp only [bind, Except.bind, hhit]
      rfl
  | _ => rfl

end Execution

section Upcoming

variable {m : Machine δ κ}

theorem upcoming?_of_clear {i : Instruction} (hm : m.mode = .running) (hf : m.fetch = .ok i)
    (hi : i.obstacle? m = none) : m.upcoming? = some i := by
  simp only [upcoming?, hm, hf, hi, if_true]

theorem upcoming?_of_obstacle {fault : Fault} (h : m.obstacle? = some fault) :
    m.upcoming? = none := by
  unfold upcoming?
  split
  · rename_i i hm hf
    rw [obstacle?_of_fetch hf] at h
    rw [h]
    rfl
  · rfl

theorem upcoming?_of_mode (hm : m.mode ≠ .running) : m.upcoming? = none := by
  unfold upcoming?
  split
  · rename_i hr hf
    exact absurd hr hm
  · rfl

end Upcoming

section Steps

variable [Display δ] [Display ε] [Keypad κ] {m : Machine δ κ} {timers : Timers} {display : ε}

theorem cycle_refit_of_obstacle {fault : Fault} (h : m.obstacle? = some fault) :
    (m.refit timers display).cycle
      = ⟨m.cycle.state.refit timers display, m.cycle.result, m.cycle.log⟩ := by
  rcases hf : m.fetch with f | i
  · have hf' : (m.refit timers display).fetch = .error f := hf
    simp only [cycle, hf, hf']
    rfl
  · have hf' : (m.refit timers display).fetch = .ok i := hf
    rw [obstacle?_of_fetch hf] at h
    have he : i.execute m = .error fault := execute_eq_error_iff.2 h
    have he' : i.execute (m.refit timers display) = .error fault := execute_eq_error_iff.2 h
    simp only [cycle, hf, hf', he, he']
    rfl

theorem cycle_refit_of_clear {i : Instruction} (hf : m.fetch = .ok i) (hi : i.obstacle? m = none)
    (h : i.glimpse? (m.refit timers display) = i.glimpse? m) :
    (m.refit timers display).cycle
      = ⟨m.cycle.state.refit (i.timersAfter m.registers timers)
          (i.displayAfter (m.refit timers display)), m.cycle.result, m.cycle.log⟩ := by
  have hf' : (m.refit timers display).fetch = .ok i := hf
  obtain ⟨next, he⟩ := exists_execute_eq_ok hi
  have he' := execute_refit h
  rw [he] at he'
  simp only [cycle, hf, hf', he, he', Except.map]
  rfl

theorem cycle_refit (hm : m.mode = .running)
    (h : (m.refit timers display).glimpse? = m.glimpse?) :
    (m.refit timers display).cycle
      = ⟨m.cycle.state.refit (m.timersAfter timers) (m.refit timers display).displayAfter,
        m.cycle.result, m.cycle.log⟩ := by
  have hsame : (m.refit timers display).upcoming? = m.upcoming? := rfl
  simp only [glimpse?, timersAfter, displayAfter, hsame] at h ⊢
  rcases ho : m.obstacle? with _ | fault
  · obtain ⟨i, hf, hi⟩ := exists_fetch_of_clear ho
    rw [upcoming?_of_clear hm hf hi] at h ⊢
    exact cycle_refit_of_clear hf hi h
  · rw [upcoming?_of_obstacle ho]
    exact cycle_refit_of_obstacle ho

theorem step_refit_of_mode (hm : m.mode ≠ .running) :
    (m.refit timers display).step
      = ⟨m.step.state.refit timers display, m.step.result, m.step.log⟩ := by
  simp only [step, refit]
  rcases h : m.mode with _ | _ | x | fault
  · rfl
  · exact absurd h hm
  · simp only [awaitKey]
    split <;> rfl
  · rfl

/-- With other timers and another display a machine makes the same step, unless it learns something
else of them in this step. -/
theorem step_refit (h : (m.refit timers display).glimpse? = m.glimpse?) :
    (m.refit timers display).step
      = ⟨m.step.state.refit (m.timersAfter timers) (m.refit timers display).displayAfter,
        m.step.result, m.step.log⟩ := by
  by_cases hm : m.mode = .running
  · have hm' : (m.refit timers display).mode = .running := hm
    rw [step_of_running hm, step_of_running hm']
    exact cycle_refit (m := m.polled) hm h
  · have hup : m.upcoming? = none := upcoming?_of_mode hm
    have hup' : (m.refit timers display).upcoming? = none := hup
    rw [step_refit_of_mode hm, timersAfter, displayAfter, hup, hup']
    rfl

variable (m)

/-- Fitting a machine with what it has changes nothing, so its own timers and its own display come
out of a step as these do. -/
theorem timers_step : m.step.state.timers = m.timersAfter m.timers := by
  have h : m.step = ⟨m.step.state.refit (m.timersAfter m.timers) m.displayAfter,
    m.step.result, m.step.log⟩ := step_refit rfl
  exact congrArg (fun turn => turn.state.timers) h

theorem display_step : m.step.state.display = m.displayAfter := by
  have h : m.step = ⟨m.step.state.refit (m.timersAfter m.timers) m.displayAfter,
    m.step.result, m.step.log⟩ := step_refit rfl
  exact congrArg (fun turn => turn.state.display) h

end Steps

section Load

/-- The timers after a program is loaded, if they were `timers` before that. -/
def timersAfterLoad (program : List UInt8) (timers : Timers) : Timers :=
  if program.length ≤ 3584 then .zero else timers

variable (m : Machine δ κ) (program : List UInt8)

/-- Loading a program asks nothing of the timers and the display. -/
theorem load_refit (timers : Timers) (display : ε) :
    (m.refit timers display).load program
      = ⟨(m.load program).state.refit (timersAfterLoad program timers) display,
        (m.load program).result, (m.load program).log⟩ := by
  rcases Nat.lt_or_ge 3584 program.length with hlong | hfits
  · rw [load_of_long _ hlong, load_of_long _ hlong, timersAfterLoad, if_neg (Nat.not_le.2 hlong)]
    rfl
  · rw [load_of_fits _ hfits, load_of_fits _ hfits, timersAfterLoad, if_pos hfits]
    rfl

theorem timers_load : (m.load program).state.timers = timersAfterLoad program m.timers :=
  congrArg (fun turn => turn.state.timers) (m.load_refit program m.timers m.display)

theorem display_load : (m.load program).state.display = m.display :=
  congrArg (fun turn => turn.state.display) (m.load_refit program m.timers m.display)

end Load

end Machine

end Chip8
