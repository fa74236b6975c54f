import Chip8.Proofs.History

/-!
# Bounds on the program counter and the stack

An instruction is fetched from 0xFFE or below, so what it makes of the program counter is at most
0x1002 unless it is a jump, and 0x10FE is the furthest a jump gets. A return address is one of the
former kind, and so is what a return makes of the program counter. Only a host can point the
program counter beyond that, by starting the machine there, and then no step moves it
(`Bounded.step`).

So the sums of 2 that the program counter goes through never leave 16 bits, in any history of any
machine (`after_bounded`).
-/

namespace Chip8

variable {δ κ : Type}

/-- Where the machine was started last, `last?` before the action. -/
def Action.lastStart? (last? : Option UInt16) : Action δ κ → Option UInt16
  | .start address => some address
  | .load program =>
    if programStart.toNat + program.length ≤ 4096 then some programStart else last?
  | _ => last?

/-- The program counter moves on by one and by two instructions without wrapping around. -/
def Registers.HasRoom (r : Registers) : Prop :=
  (r.pc + 2).toNat = r.pc.toNat + 2 ∧ (r.pc + 2 + 2).toNat = r.pc.toNat + 4

theorem Registers.hasRoom_of_lt {r : Registers} (h : r.pc.toNat < 0xFFF) : r.HasRoom :=
  ⟨toNat_pc_advance h, toNat_pc_skipIf true h⟩

namespace Machine

/-- The invariant, in a machine that was last started at `last?`. -/
structure Bounded (last? : Option UInt16) (m : Machine δ κ) : Prop where
  depth : m.stack.toList.length ≤ 16
  stacked : ∀ a ∈ m.stack.toList, 2 ≤ a.toNat ∧ a.toNat ≤ 0x1000
  pc : m.registers.pc.toNat ≤ 0x10FE ∨ last? = some m.registers.pc
  waiting : ∀ x, m.mode = .waiting x → m.registers.pc.toNat ≤ 0xFFE

end Machine

namespace Instruction

variable {m : Machine δ κ} {i : Instruction}

theorem mem_stackAfter {a : UInt16} (h : a ∈ i.stackAfter m) :
    a ∈ m.stack.toList ∨ a = .ofNat (m.registers.pc.toNat + 2) := by
  cases i with
  | ret => exact .inl (List.mem_of_mem_tail h)
  | call b => exact (List.mem_cons.1 h).symm
  | _ => exact .inl h

theorem pcAfter_le [Keypad κ] (hpc : m.registers.pc.toNat < 0xFFF)
    (hs : ∀ a ∈ m.stack.toList, a.toNat ≤ 0x1000) : i.pcAfter m ≤ 0x10FE := by
  cases i with
  | ret =>
    simp only [pcAfter]
    rcases hl : m.stack.toList with _ | ⟨a, l⟩
    · simp
    · have := hs a (by simp [hl])
      simp only [List.headD_cons]
      omega
  | jump a | call a =>
    simp only [pcAfter]
    omega
  | jumpOffset a =>
    have := (m.registers.get 0).toNat_lt
    simp only [pcAfter]
    omega
  | skipIf c =>
    simp only [pcAfter]
    split_ifs <;> omega
  | _ =>
    simp only [pcAfter]
    omega

/-- A wait is entered by the instruction that waits, which leaves the program counter alone. -/
theorem pcAfter_of_modeAfter [Keypad κ] (hm : m.mode = .running) {x : Register}
    (h : i.modeAfter m = .waiting x) : i.pcAfter m = m.registers.pc.toNat := by
  cases i with
  | waitForKey y => rfl
  | _ =>
    simp only [modeAfter, hm] at h
    cases h

end Instruction

namespace Machine

theorem new_bounded (display : δ) (keypad : κ) (random : Keystream) :
    (new display keypad random).Bounded none where
  depth := by simp [new]
  stacked := by simp [new]
  pc := .inl (by simp [new, Registers.startingAt])
  waiting := fun x h => by cases h

theorem start_bounded (m : Machine δ κ) (address : UInt16) :
    (m.start address).state.Bounded (some address) where
  depth := by simp [start]
  stacked := by simp [start]
  pc := .inr rfl
  waiting := fun x h => by cases h

variable [Display δ] [Keypad κ] {last? : Option UInt16} {m : Machine δ κ}

theorem Bounded.executed {i : Instruction} {next : Machine δ κ} (h : m.Bounded last?)
    (hm : m.mode = .running) (hf : m.fetch = .ok i) (hrow : i.Follows m.polled next) :
    next.Bounded last? := by
  have hpc : m.registers.pc.toNat < 0xFFF := (fetch_eq_ok_iff.1 hf).1
  refine ⟨?_, fun a ha => ?_, .inl ?_, fun x hx => ?_⟩
  · rw [CallStack.length_toList]
    exact next.stack.depth_le
  · rw [hrow.stack] at ha
    rcases Instruction.mem_stackAfter ha with ha | rfl
    · exact h.stacked a ha
    · simp only [polled, UInt16.toNat_ofNat']
      omega
  · rw [hrow.pc]
    exact Instruction.pcAfter_le hpc fun a ha => (h.stacked a ha).2
  · rw [hrow.mode] at hx
    rw [hrow.pc, Instruction.pcAfter_of_modeAfter (m := m.polled) hm hx]
    exact Nat.le_of_lt_succ hpc

theorem Bounded.step (h : m.Bounded last?) : m.step.state.Bounded last? := by
  have hs := m.steps_step
  revert hs
  generalize m.step.state = next, m.step.result = result
  intro hs
  cases hs with
  | idle hm | halted hm => exact ⟨h.depth, h.stacked, h.pc, h.waiting⟩
  | failed hm ho => exact ⟨h.depth, h.stacked, h.pc, fun x hx => by cases hx⟩
  | executed hm hf ho hrow => exact h.executed hm hf hrow
  | waited hm hk => exact ⟨h.depth, h.stacked, h.pc, h.waiting⟩
  | received hm hk =>
    have := h.waiting _ hm
    refine ⟨h.depth, h.stacked, .inl ?_, fun x hx => by cases hx⟩
    rw [Registers.toNat_pc_advance] <;> simp only [Registers.pc_set] <;> omega

theorem Bounded.act (h : m.Bounded last?) (a : Action δ κ) :
    (m.act a).Bounded (a.lastStart? last?) := by
  cases a with
  | load program =>
    rcases m.load_cases program with ⟨hfits, memory, hl⟩ | ⟨hlong, hl⟩
    · simp only [Machine.act, Action.lastStart?, if_pos hfits, hl]
      exact start_bounded _ _
    · simp only [Machine.act, Action.lastStart?, if_neg (Nat.not_le.2 hlong), hl]
      exact ⟨h.depth, h.stacked, h.pc, fun x hx => by cases hx⟩
  | start address => exact start_bounded m address
  | step => exact h.step
  | tick elapsed => exact ⟨h.depth, h.stacked, h.pc, h.waiting⟩
  | onMemory change => exact ⟨h.depth, h.stacked, h.pc, h.waiting⟩
  | onDisplay change => exact ⟨h.depth, h.stacked, h.pc, h.waiting⟩
  | onKeypad change => exact ⟨h.depth, h.stacked, h.pc, h.waiting⟩

theorem Bounded.after (h : m.Bounded last?) (history : List (Action δ κ)) :
    (m.after history).Bounded (history.foldl Action.lastStart? last?) := by
  induction history generalizing m last? with
  | nil => exact h
  | cons a history ih => exact ih (h.act a)

/-- Whatever happened to a machine since it was new, its program counter and its stack are within
their bounds, and where an instruction is executed or a wait may end, moving on does not wrap
around. -/
theorem after_bounded (display : δ) (keypad : κ) (random : Keystream)
    (history : List (Action δ κ)) :
    let m := (new display keypad random).after history
    m.Bounded (history.foldl Action.lastStart? none)
      ∧ (∀ i, m.fetch = .ok i → m.registers.HasRoom)
      ∧ ∀ x, m.mode = .waiting x → m.registers.HasRoom := by
  intro m
  have hb : m.Bounded (history.foldl Action.lastStart? none) :=
    (new_bounded display keypad random).after history
  refine ⟨hb, fun i hf => ?_, fun x hx => ?_⟩
  · exact Registers.hasRoom_of_lt (fetch_eq_ok_iff.1 hf).1
  · exact Registers.hasRoom_of_lt (Nat.lt_succ_of_le (hb.waiting x hx))

end Machine

end Chip8
