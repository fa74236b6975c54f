import Chip8.Proofs.Table

/-!
# What a step can do

`Machine.Steps` has a constructor for each way a step can go, with the state it leaves and its
result. `steps_step` says that there are no others, so a property that every step keeps is proved
by cases on them and never by looking into `step` again.
-/

namespace Chip8.Machine

variable {δ κ : Type} [Display δ] [Keypad κ]

inductive Steps (m : Machine δ κ) : Machine δ κ → Except Fault Outcome → Prop
  | idle (hm : m.mode = .idle) : Steps m m.polled (.error .notInitialized)
  | halted {fault : Fault} (hm : m.mode = .halted fault) : Steps m m.polled (.error fault)
  | failed {fault : Fault} (hm : m.mode = .running) (ho : m.obstacle? = some fault) :
    Steps m { m.polled with mode := .halted fault } (.error fault)
  | executed {i : Instruction} {next : Machine δ κ} (hm : m.mode = .running) (hf : m.fetch = .ok i)
    (ho : i.obstacle? m = none) (hrow : i.Follows m.polled next) : Steps m next (.ok .executed)
  | waited {x : Register} {keypad : κ} (hm : m.mode = .waiting x)
    (hk : Keypad.takePress m.polled.keypad = (none, keypad)) :
    Steps m { m with keypad } (.ok .waiting)
  | received {x : Register} {key : Key} {keypad : κ} (hm : m.mode = .waiting x)
    (hk : Keypad.takePress m.polled.keypad = (some key, keypad)) :
    Steps m { m with
      keypad
      registers := (m.registers.set x (.ofNat key.val)).advance
      mode := .running } (.ok (.received key))

/-- What a step does once the keypad has taken in its input. -/
def proceed (m : Machine δ κ) : Turn (Machine δ κ) (Except Fault Outcome) :=
  match m.mode with
  | .idle => ⟨m, .error .notInitialized, []⟩
  | .running => m.cycle
  | .waiting x => m.awaitKey x
  | .halted fault => ⟨m, .error fault, []⟩

theorem step_eq_proceed (m : Machine δ κ) : m.step = m.polled.proceed := rfl

section Modes

variable {m : Machine δ κ}

theorem step_of_idle (hm : m.mode = .idle) : m.step = ⟨m.polled, .error .notInitialized, []⟩ := by
  simp only [step, polled, hm]

theorem step_of_waiting {x : Register} (hm : m.mode = .waiting x) :
    m.step = m.polled.awaitKey x := by
  simp only [step, polled, hm]

theorem step_of_halted {fault : Fault} (hm : m.mode = .halted fault) :
    m.step = ⟨m.polled, .error fault, []⟩ := by
  simp only [step, polled, hm]

end Modes

variable (m : Machine δ κ)

theorem steps_of_running (hm : m.mode = .running) : m.Steps m.step.state m.step.result := by
  rw [step_of_running hm]
  rcases ho : m.obstacle? with _ | fault
  · obtain ⟨i, hf, hi⟩ := exists_fetch_of_clear ho
    obtain ⟨hr, hrow⟩ := cycle_follows (m := m.polled) hf hi
    rw [hr]
    exact .executed hm hf hi hrow
  · obtain ⟨hr, hs⟩ := cycle_of_obstacle (m := m.polled) ho
    rw [hr, hs]
    exact .failed hm ho

theorem steps_of_waiting {x : Register} (hm : m.mode = .waiting x) :
    m.Steps m.step.state m.step.result := by
  rw [step_of_waiting hm]
  rcases hk : Keypad.takePress m.polled.keypad with ⟨_ | key, keypad⟩ <;> simp only [awaitKey, hk]
  · exact .waited hm hk
  · exact .received hm hk

theorem steps_step : m.Steps m.step.state m.step.result := by
  rcases hm : m.mode with _ | _ | x | fault
  · rw [step_of_idle hm]
    exact .idle hm
  · exact m.steps_of_running hm
  · exact m.steps_of_waiting hm
  · rw [step_of_halted hm]
    exact .halted hm

end Chip8.Machine
