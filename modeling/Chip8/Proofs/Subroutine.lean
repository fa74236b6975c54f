import Chip8.Proofs.History

/-!
# Calls and returns

Of all that can happen to a machine short of starting it anew, only executing a call or a return
changes its stack (`stack_act`). So what is on the stack at a call, with the return address on top
of it, stays at the bottom of the stack until a return finds it uncovered, whatever is called and
returned from in between and whatever becomes of the program in memory (`call_until_return`).
-/

namespace Chip8.Machine

variable {δ κ : Type}

/-- The instruction that a step executes, if it executes one. -/
def upcoming? (m : Machine δ κ) : Option Instruction :=
  match m.mode, m.fetch with
  | .running, .ok i => if i.obstacle? m = none then some i else none
  | _, _ => none

variable [Display δ] [Keypad κ] {m : Machine δ κ}

/-- A step from `m` executes the instruction `i`. -/
structure Executes (m : Machine δ κ) (i : Instruction) : Prop where
  mode : m.mode = .running
  fetch : m.fetch = .ok i
  result : m.step.result = .ok .executed

theorem Executes.row {i : Instruction} (h : m.Executes i) : i.Follows m.polled m.step.state := by
  have hs := m.steps_step
  rw [h.result] at hs
  generalize m.step.state = next at hs ⊢
  cases hs with
  | executed hm hf ho hrow =>
    obtain rfl := Except.ok.inj (hf.symm.trans h.fetch)
    exact hrow

theorem upcoming?_eq_some_iff {i : Instruction} : m.upcoming? = some i ↔ m.Executes i := by
  unfold upcoming?
  constructor
  · intro h
    split at h
    · rename_i j hm hf
      split_ifs at h with ho
      obtain rfl : j = i := Option.some.inj h
      refine ⟨hm, hf, ?_⟩
      rw [step_of_running hm]
      exact (cycle_follows (m := m.polled) hf ho).1
    · cases h
  · rintro ⟨hm, hf, hr⟩
    simp only [hm, hf]
    rcases ho : i.obstacle? m with _ | fault
    · rfl
    · have hfault : m.polled.obstacle? = some fault := (obstacle?_of_fetch hf).trans ho
      rw [step_of_running hm, (cycle_of_obstacle hfault).1] at hr
      cases hr

theorem result_ne_executed (h : m.upcoming? = none) : m.step.result ≠ .ok .executed := by
  intro hr
  have hs := m.steps_step
  rw [hr] at hs
  have hno : ∀ i, m.mode = .running → m.fetch = .ok i → False := fun i hm hf => by
    rw [upcoming?_eq_some_iff.2 ⟨hm, hf, hr⟩] at h
    cases h
  generalize m.step.state = next at hs
  cases hs with
  | executed hm hf ho hrow => exact hno _ hm hf

/-- A step that executes nothing leaves all but the registers, the mode and the keypad alone. -/
theorem step_of_upcoming?_none (h : m.upcoming? = none) :
    ∃ registers mode keypad, m.step.state = { m with registers, mode, keypad } := by
  have hs := m.steps_step
  have hx := result_ne_executed h
  generalize m.step.state = next, m.step.result = result at hs hx ⊢
  cases hs with
  | idle hm | halted hm | failed hm ho | waited hm hk | received hm hk => exact ⟨_, _, _, rfl⟩
  | executed hm hf ho hrow => exact (hx rfl).elim

theorem stack_step (m : Machine δ κ) :
    m.step.state.stack.toList = m.stack.toList ∨ m.Executes .ret ∨ ∃ a, m.Executes (.call a) := by
  have hs := m.steps_step
  have hx : ∀ {i}, m.mode = .running → m.fetch = .ok i → m.step.result = .ok .executed →
      m.Executes i := fun hm hf hr => ⟨hm, hf, hr⟩
  generalize m.step.state = next, m.step.result = result at hs hx ⊢
  cases hs with
  | idle hm | halted hm | failed hm ho | waited hm hk | received hm hk => exact .inl rfl
  | @executed i next hm hf ho hrow =>
    cases i with
    | ret => exact .inr (.inl (hx hm hf rfl))
    | call a => exact .inr (.inr ⟨a, hx hm hf rfl⟩)
    | _ => exact .inl hrow.stack

theorem Executes.stack_call {a : Address} (h : m.Executes (.call a)) :
    m.step.state.stack.toList = (m.registers.pc + 2) :: m.stack.toList := by
  rw [h.row.stack]
  simp [Instruction.stackAfter, polled]

theorem Executes.toNat_pc_add {i : Instruction} (h : m.Executes i) :
    (m.registers.pc + 2).toNat = m.registers.pc.toNat + 2 :=
  Registers.toNat_pc_advance (fetch_eq_ok_iff.1 h.fetch).1

/-- Only the execution of a call or a return changes the stack. -/
theorem stack_act {a : Action δ κ} (ha : a.restarts = false) :
    (m.act a).stack.toList = m.stack.toList
      ∨ a = .step ∧ (m.Executes .ret ∨ ∃ b, m.Executes (.call b)) := by
  cases a with
  | load program | start address => cases ha
  | step => exact m.stack_step.imp_right fun h => ⟨rfl, h⟩
  | _ => exact .inl rfl

/-- An action leaves the bottom of the stack alone unless it returns to the address on top of it. -/
theorem suffix_act {back : UInt16} {callers : List UInt16}
    (h : (back :: callers) <:+ m.stack.toList) {a : Action δ κ} (ha : a.restarts = false) :
    (back :: callers) <:+ (m.act a).stack.toList
      ∨ a = .step ∧ m.Executes .ret ∧ m.step.state.registers.pc = back
        ∧ m.step.state.stack.toList = callers := by
  rcases stack_act (m := m) ha with hkept | ⟨rfl, hret | ⟨b, hcall⟩⟩
  · exact .inl (hkept ▸ h)
  · have hpc := hret.row.pc
    have hst := hret.row.stack
    simp only [Instruction.pcAfter, Instruction.stackAfter, polled] at hpc hst
    obtain ⟨above, habove⟩ := h
    rcases above with _ | ⟨top, above⟩
    · rw [← habove] at hpc hst
      exact .inr ⟨rfl, hret, UInt16.toNat_inj.1 hpc, hst⟩
    · left
      rw [← habove] at hst
      exact ⟨above, hst.symm⟩
  · left
    show _ <:+ m.step.state.stack.toList
    rw [hcall.stack_call]
    exact h.trans (List.suffix_cons _ _)

theorem suffix_after {back : UInt16} {callers : List UInt16}
    (h : (back :: callers) <:+ m.stack.toList) {later : List (Action δ κ)}
    (hl : ∀ a ∈ later, a.restarts = false)
    (hdeep : ∀ soFar, soFar <+: later → callers.length < (m.after soFar).stack.depth) :
    (back :: callers) <:+ (m.after later).stack.toList := by
  induction later generalizing m with
  | nil => exact h
  | cons a later ih =>
    have hdeep' : ∀ soFar, soFar <+: later →
        callers.length < ((m.act a).after soFar).stack.depth := fun soFar hs =>
      hdeep (a :: soFar) (List.cons_prefix_cons.2 ⟨rfl, hs⟩)
    rcases suffix_act h (hl a List.mem_cons_self) with hkept | ⟨rfl, -, -, hst⟩
    · exact ih hkept (fun b hb => hl b (List.mem_cons_of_mem _ hb)) hdeep'
    · exfalso
      have := hdeep' [] List.nil_prefix
      rw [after_nil, ← CallStack.length_toList] at this
      exact absurd (hst ▸ this) (Nat.lt_irrefl _)

/-- As long as the stack stays deeper than at a call, it holds what it held then, with the return
address on top, below whatever was stacked since. What first brings it back to that depth is a
return to the word behind the call, and the stack is what it was. Nothing but calls and returns
ever changes it. -/
theorem call_until_return {a : Address} (hcall : m.Executes (.call a))
    {later : List (Action δ κ)} (hl : ∀ b ∈ later, b.restarts = false)
    (hdeep : ∀ soFar, soFar <+: later →
      m.stack.depth < (m.step.state.after soFar).stack.depth) :
    ((m.registers.pc + 2) :: m.stack.toList) <:+ (m.step.state.after later).stack.toList
      ∧ (∀ next : Action δ κ, next.restarts = false →
        (m.step.state.after (later ++ [next])).stack.depth ≤ m.stack.depth →
          next = .step ∧ (m.step.state.after later).Executes .ret
            ∧ (m.step.state.after (later ++ [next])).registers.pc.toNat = m.registers.pc.toNat + 2
            ∧ (m.step.state.after (later ++ [next])).stack.toList = m.stack.toList)
      ∧ ∀ (other : Machine δ κ) (next : Action δ κ), next.restarts = false →
        (other.act next).stack.toList ≠ other.stack.toList →
          next = .step ∧ (other.Executes .ret ∨ ∃ b, other.Executes (.call b)) := by
  have hl' : ∀ soFar, soFar <+: later →
      m.stack.toList.length < (m.step.state.after soFar).stack.depth := fun soFar hs => by
    rw [CallStack.length_toList]
    exact hdeep soFar hs
  have hkept : ((m.registers.pc + 2) :: m.stack.toList) <:+
      (m.step.state.after later).stack.toList :=
    suffix_after (hcall.stack_call ▸ List.suffix_refl _) hl hl'
  refine ⟨hkept, fun next hn hback => ?_, fun other next hn hne => ?_⟩
  · rw [after_concat] at hback ⊢
    rcases suffix_act hkept hn with hstill | ⟨rfl, hret, hpc, hst⟩
    · exfalso
      have hlen := hstill.length_le
      rw [List.length_cons, CallStack.length_toList, CallStack.length_toList] at hlen
      omega
    · refine ⟨rfl, hret, ?_, hst⟩
      rw [← hcall.toNat_pc_add]
      exact congrArg UInt16.toNat hpc
  · rcases stack_act (m := other) hn with hsame | hchanged
    · exact absurd hsame hne
    · exact hchanged

/-- The subroutine at 0x204 calls its own last instruction, so it returns twice. -/
theorem call_until_return_nested :
    let m := headless [0x22, 0x04, 0x00, 0x00, 0x22, 0x06, 0x00, 0xEE]
    let inner := m.step.state.after [.step, .step]
    m.Executes (.call 0x204) ∧ inner.Executes .ret
      ∧ (inner.act .step).registers.pc.toNat = 0x202 ∧ (inner.act .step).stack.toList = [] := by
  intro m inner
  have hcall : m.Executes (.call 0x204) :=
    ⟨by decide +kernel, by decide +kernel, by decide +kernel⟩
  have hdeep : ∀ soFar, soFar <+: [Action.step, .step] →
      m.stack.depth < (m.step.state.after soFar).stack.depth := by
    intro soFar hs
    simp only [List.prefix_cons_iff, List.prefix_nil] at hs
    rcases hs with rfl | ⟨-, rfl, rfl | ⟨-, rfl, rfl⟩⟩ <;> decide +kernel
  have hl : ∀ b : Action Headless WiredKeypad, b ∈ [.step, .step] → b.restarts = false := by
    simp [Action.restarts]
  obtain ⟨-, hback, -⟩ := call_until_return hcall hl hdeep
  obtain ⟨-, hret, hpc, hst⟩ := hback .step rfl (by decide +kernel)
  exact ⟨hcall, hret, hpc.trans (by decide +kernel), hst.trans (by decide +kernel)⟩

end Chip8.Machine
