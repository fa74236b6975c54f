import Chip8.Display.Traced
import Chip8.Keypad.Traced
import Chip8.Keypad.Wired
import Chip8.Machine.Step
import Chip8.Proofs.MemoryRange

/-!
# What stops a machine

`Machine.obstacle?` lists the reasons why a running machine cannot execute its next instruction, in
the order in which they are looked for. It reads memory, the registers and the depth of the stack
and nothing else. A running machine halts with the first of them that applies and executes an
instruction if none does (`step_of_obstacle`).
-/

namespace Chip8

variable {δ κ : Type}

/-- The fault of a range of bytes that reaches beyond the end of memory. -/
def Memory.beyond? (start length : Nat) : Option Fault :=
  if 0 < length ∧ 4096 < start + length then some (.outOfBounds (max start 4096)) else none

def Instruction.obstacle? (i : Instruction) (m : Machine δ κ) : Option Fault :=
  let index := m.registers.index.toNat
  match i with
  | .ret => if m.stack.depth = 0 then some .stackUnderflow else none
  | .call _ => if m.stack.depth = 16 then some .stackOverflow else none
  | .draw _ _ rows => Memory.beyond? index rows.val
  | .storeBcd _ => Memory.beyond? index 3
  | .storeRegisters x | .loadRegisters x => Memory.beyond? index (x.val + 1)
  | _ => none

/-- The fault of the next instruction: of reading its word, of decoding it, or its own. -/
def Machine.obstacle? (m : Machine δ κ) : Option Fault :=
  if 0xFFF ≤ m.registers.pc.toNat then some (.outOfBounds (max m.registers.pc.toNat 4096))
  else
    match Instruction.decode? (m.memory.wordAt m.registers.pc.toNat) with
    | none => some (.illegalInstruction (m.memory.wordAt m.registers.pc.toNat) m.registers.pc)
    | some i => i.obstacle? m

theorem Memory.beyond?_eq_some_iff {start length : Nat} {fault : Fault} :
    beyond? start length = some fault ↔
      0 < length ∧ 4096 < start + length ∧ fault = .outOfBounds (max start 4096) := by
  unfold beyond?
  split_ifs with h
  · simp only [h, Option.some.injEq, true_and, eq_comm]
  · simp only [false_iff]
    omega

theorem Memory.read_eq_error_iff (m : Memory) {address : UInt16} {length : Nat} {fault : Fault} :
    m.read address length = .error fault ↔ beyond? address.toNat length = some fault := by
  rw [beyond?_eq_some_iff, ← requireRange_eq_error_iff]
  exact bind_pure_eq_error_iff

section Execute

variable [Display δ] [Keypad κ]

theorem execute_eq_error_iff {i : Instruction} {m : Machine δ κ} {fault : Fault} :
    i.execute m = .error fault ↔ i.obstacle? m = some fault := by
  cases i with
  | ret =>
    refine bind_pure_eq_error_iff.trans (CallStack.pop_eq_error_iff.trans ?_)
    simp [Instruction.obstacle?, eq_comm]
  | call a =>
    refine bind_pure_eq_error_iff.trans (CallStack.push_eq_error_iff.trans ?_)
    simp [Instruction.obstacle?, eq_comm]
  | draw x y rows =>
    refine bind_pure_eq_error_iff.trans ?_
    exact Memory.read_eq_error_iff m.memory
  | storeBcd x =>
    refine bind_pure_eq_error_iff.trans ((Memory.write_eq_error_iff m.memory).trans ?_)
    exact Memory.beyond?_eq_some_iff.symm
  | storeRegisters x =>
    refine bind_pure_eq_error_iff.trans ((Memory.write_eq_error_iff m.memory).trans ?_)
    rw [Registers.length_upTo]
    exact Memory.beyond?_eq_some_iff.symm
  | loadRegisters x =>
    refine bind_pure_eq_error_iff.trans ?_
    exact Memory.read_eq_error_iff m.memory
  | _ => simp [Instruction.execute, Instruction.obstacle?]

theorem exists_execute_eq_ok {i : Instruction} {m : Machine δ κ} (h : i.obstacle? m = none) :
    ∃ next, i.execute m = .ok next := by
  rcases he : i.execute m with fault | next
  · rw [execute_eq_error_iff, h] at he
    cases he
  · exact ⟨next, rfl⟩

end Execute

namespace Machine

theorem fetch_eq (m : Machine δ κ) :
    m.fetch =
      if m.registers.pc.toNat < 0xFFF then
        match Instruction.decode? (m.memory.wordAt m.registers.pc.toNat) with
        | none => .error (.illegalInstruction (m.memory.wordAt m.registers.pc.toNat) m.registers.pc)
        | some i => .ok i
      else .error (.outOfBounds (max m.registers.pc.toNat 4096)) := by
  rw [fetch, Memory.readWord_eq]
  split_ifs
  · simp only [bind, Except.bind]
    cases Instruction.decode? (m.memory.wordAt m.registers.pc.toNat) <;> rfl
  · rfl

theorem fetch_eq_ok_iff {m : Machine δ κ} {i : Instruction} :
    m.fetch = .ok i ↔ m.registers.pc.toNat < 0xFFF
      ∧ Instruction.decode? (m.memory.wordAt m.registers.pc.toNat) = some i := by
  rw [fetch_eq]
  split_ifs with h
  · cases Instruction.decode? (m.memory.wordAt m.registers.pc.toNat) <;> simp [h]
  · simp [h]

theorem obstacle?_of_fetch_error {m : Machine δ κ} {fault : Fault} (h : m.fetch = .error fault) :
    m.obstacle? = some fault := by
  rw [fetch_eq] at h
  unfold obstacle?
  split_ifs at h with hpc
  · rw [if_neg (by omega)]
    cases hd : Instruction.decode? (m.memory.wordAt m.registers.pc.toNat) with
    | none =>
      rw [hd] at h
      cases h
      rfl
    | some i =>
      rw [hd] at h
      cases h
  · rw [if_pos (by omega)]
    cases h
    rfl

theorem obstacle?_of_fetch {m : Machine δ κ} {i : Instruction} (h : m.fetch = .ok i) :
    m.obstacle? = i.obstacle? m := by
  obtain ⟨hpc, hd⟩ := fetch_eq_ok_iff.1 h
  rw [obstacle?, if_neg (by omega), hd]

/-- The machine after the keypad has taken in its input, as every step begins. -/
def polled [Keypad κ] (m : Machine δ κ) : Machine δ κ :=
  { m with keypad := Keypad.update m.keypad }

/-- The machine with peripherals that list the calls made on them, none so far. -/
def traced (m : Machine δ κ) : Machine (TracedDisplay δ) (TracedKeypad κ) :=
  { m with display := ⟨m.display, #[]⟩, keypad := ⟨m.keypad, #[]⟩ }

variable {m : Machine δ κ} {i : Instruction} {fault : Fault}

theorem exists_fetch_of_clear (h : m.obstacle? = none) :
    ∃ i, m.fetch = .ok i ∧ i.obstacle? m = none := by
  rcases hf : m.fetch with f | i
  · rw [obstacle?_of_fetch_error hf] at h
    cases h
  · exact ⟨i, rfl, by rw [← obstacle?_of_fetch hf, h]⟩

variable [Display δ] [Keypad κ]

theorem step_of_running (h : m.mode = .running) : m.step = m.polled.cycle := by
  simp only [step, polled, h]

theorem cycle_of_execute {next : Machine δ κ} (hf : m.fetch = .ok i)
    (he : i.execute m = .ok next) :
    m.cycle.result = .ok .executed ∧ m.cycle.state = next := by
  simp [cycle, hf, he]

theorem cycle_of_obstacle (h : m.obstacle? = some fault) :
    m.cycle.result = .error fault ∧ m.cycle.state = { m with mode := .halted fault } := by
  rcases hf : m.fetch with f | i
  · obtain rfl : f = fault := Option.some.inj ((obstacle?_of_fetch_error hf).symm.trans h)
    simp [cycle, hf, halt]
  · rw [obstacle?_of_fetch hf, ← execute_eq_error_iff] at h
    simp [cycle, hf, h, halt]

theorem cycle_result (m : Machine δ κ) :
    m.cycle.result = match m.obstacle? with
      | some fault => .error fault
      | none => .ok .executed := by
  rcases ho : m.obstacle? with _ | fault
  · obtain ⟨i, hf, hi⟩ := exists_fetch_of_clear ho
    obtain ⟨next, he⟩ := exists_execute_eq_ok hi
    exact (cycle_of_execute hf he).1
  · exact (cycle_of_obstacle ho).1

/-- A machine without a screen, started with a program. -/
def headless (program : List UInt8) : Machine Headless WiredKeypad :=
  ((new {} .idle (.ofSeed 0)).load program).state

/-- A running machine halts with the first obstacle in its way and executes an instruction if there
is none. Halting changes nothing else, and asks nothing of the display and nothing of the keypad
beyond taking in its input. -/
theorem step_of_obstacle (h : m.mode = .running) :
    (m.step.result = match m.obstacle? with
      | some fault => .error fault
      | none => .ok .executed)
      ∧ ∀ fault, m.step.result = .error fault →
        m.step.state = { m with keypad := Keypad.update m.keypad, mode := .halted fault }
          ∧ m.traced.step.result = .error fault
          ∧ m.traced.step.state.display.calls = #[]
          ∧ m.traced.step.state.keypad.calls = #[.update] := by
  have hr : m.step.result = match m.obstacle? with
      | some fault => .error fault
      | none => .ok .executed := by
    rw [step_of_running h]
    exact m.polled.cycle_result
  refine ⟨hr, fun fault hfail => ?_⟩
  rcases ho : m.obstacle? with _ | f <;> rw [ho] at hr <;> rw [hr] at hfail <;> cases hfail
  obtain ⟨-, hs⟩ := cycle_of_obstacle (m := m.polled) ho
  obtain ⟨hrt, hst⟩ := cycle_of_obstacle (m := m.traced.polled) ho
  refine ⟨?_, ?_⟩
  · rw [step_of_running h, hs]
    rfl
  · rw [step_of_running (m := m.traced) h, hst]
    exact ⟨hrt, rfl, rfl⟩

/-- With I at 0xFF1 there is room for fifteen registers, not for all sixteen. -/
theorem step_of_obstacle_beyond :
    let m := (headless [0xAF, 0xF1, 0xFF, 0x55]).step.state
    m.mode = .running ∧ m.step.result = .error (.outOfBounds 4096)
      ∧ m.step.state.memory = m.memory ∧ m.step.state.mode = .halted (.outOfBounds 4096) := by
  intro m
  have hm : m.mode = .running := by decide +kernel
  have ho : m.obstacle? = some (.outOfBounds 4096) := by decide +kernel
  obtain ⟨hr, hs⟩ := step_of_obstacle hm
  rw [ho] at hr
  obtain ⟨hs, -⟩ := hs _ hr
  exact ⟨hm, hr, by rw [hs], by rw [hs]⟩

end Machine

end Chip8
