import Chip8.Proofs.Presses
import Chip8.Proofs.Subroutine

/-!
# Waiting for a key

The instruction that waits for a key forgets all pending presses. From then on steps change nothing
until a pin rises, whatever is held and however time passes (`after_waiting`), and the first step
after that takes one press: the first one, or the oldest of the latest sixteen if there were more
(`wait_for_press`).
-/

namespace Chip8

/-- What can happen to a waiting machine with a wired keypad. -/
inductive WaitEvent where
  | step
  | tick (elapsed : Nat)
  | pin (change : PinChange)
  deriving DecidableEq, Repr

namespace WaitEvent

variable {δ : Type}

def action : WaitEvent → Action δ WiredKeypad
  | .step => .step
  | .tick elapsed => .tick elapsed
  | .pin c => .onKeypad (·.change c)

def pinChange? : WaitEvent → Option PinChange
  | .pin c => some c
  | _ => none

end WaitEvent

def pinChanges (events : List WaitEvent) : List PinChange :=
  events.filterMap WaitEvent.pinChange?

/-- If no pin rises in some events, then none does before any of the steps among them. -/
theorem risingEdges_before_step {k : WiredKeypad} {events early late : List WaitEvent}
    (h : k.risingEdges (pinChanges events) = []) (he : events = early ++ .step :: late) :
    k.risingEdges (pinChanges early) = [] := by
  rw [he, pinChanges, List.filterMap_append] at h
  exact WiredKeypad.risingEdges_eq_nil_of_append h

namespace Machine

variable {δ : Type} [Display δ] {m : Machine δ WiredKeypad} {x : Register}

theorem Executes.mode_wait (h : m.Executes (.waitForKey x)) :
    m.step.state.mode = .waiting x :=
  h.row.mode

theorem Executes.keypad_wait (h : m.Executes (.waitForKey x)) :
    m.step.state.keypad = m.keypad.clearPresses :=
  h.row.keypad

theorem Executes.registers_wait (h : m.Executes (.waitForKey x)) :
    m.step.state.registers = m.registers :=
  Registers.ext (Vector.ext fun k hk => h.row.values ⟨k, hk⟩) (UInt16.toNat_inj.1 h.row.index)
    (UInt16.toNat_inj.1 h.row.pc)

theorem step_of_waiting_nil (hm : m.mode = .waiting x) (hp : m.keypad.presses = []) :
    m.step = ⟨m, .ok .waiting, []⟩ := by
  obtain ⟨memory, registers, stack, timers, mode, random, display, pins, presses⟩ := m
  cases hm
  cases hp
  rfl

theorem step_of_waiting_cons (hm : m.mode = .waiting x) {key : Key} {presses : List Key}
    (hp : m.keypad.presses = key :: presses) :
    m.step = ⟨{ m with
        keypad := { m.keypad with presses }
        registers := (m.registers.set x (.ofNat key.val)).advance
        mode := .running }, .ok (.received key), [.receivedKey key]⟩ := by
  obtain ⟨memory, registers, stack, timers, mode, random, display, pins, presses⟩ := m
  cases hm
  cases hp
  rfl

/-- If no press is pending when the machine steps, a wait goes on and nothing but the timers and the
keypad changes, and the keypad only as its pins do. -/
theorem after_waiting (hm : m.mode = .waiting x) {events : List WaitEvent}
    (hnone : ∀ early late, events = early ++ .step :: late →
      (m.keypad.changes (pinChanges early)).presses = []) :
    ∃ timers, m.after (events.map WaitEvent.action)
      = { m with timers, keypad := m.keypad.changes (pinChanges events) } := by
  induction events generalizing m with
  | nil => exact ⟨m.timers, rfl⟩
  | cons e events ih =>
    cases e with
    | step =>
      have hs : m.step.state = m := by
        rw [step_of_waiting_nil hm (hnone [] events rfl)]
      obtain ⟨timers, ha⟩ :=
        ih hm fun early late he => hnone (.step :: early) late (by rw [he]; rfl)
      refine ⟨timers, ?_⟩
      show m.step.state.after _ = _
      rw [hs, ha]
      rfl
    | tick elapsed =>
      obtain ⟨timers, ha⟩ := ih (m := (m.tick elapsed).state) hm fun early late he =>
        hnone (.tick elapsed :: early) late (by rw [he]; rfl)
      exact ⟨timers, ha⟩
    | pin c =>
      obtain ⟨timers, ha⟩ := ih (m := { m with keypad := m.keypad.change c }) hm
        fun early late he => hnone (.pin c :: early) late (by rw [he]; rfl)
      exact ⟨timers, ha⟩

/-- During a wait, as long as all steps come before the first rising edge, the latest sixteen rising
edges are pending. -/
theorem Executes.after_wait (h : m.Executes (.waitForKey x)) {events : List WaitEvent}
    (hfirst : ∀ early late, events = early ++ .step :: late →
      m.step.state.keypad.risingEdges (pinChanges early) = []) :
    let s := m.step.state.after (events.map WaitEvent.action)
    s.mode = .waiting x ∧ s.registers = m.registers
      ∧ s.keypad.presses = latest 16 (m.step.state.keypad.risingEdges (pinChanges events)) := by
  have hk : m.step.state.keypad.presses = [] := by
    rw [h.keypad_wait]
    rfl
  have hnone : ∀ early late, events = early ++ .step :: late →
      (m.step.state.keypad.changes (pinChanges early)).presses = [] := by
    intro early late he
    rw [WiredKeypad.presses_changes_of_nil hk, hfirst early late he]
    rfl
  obtain ⟨timers, hs⟩ := after_waiting h.mode_wait hnone
  rw [hs]
  exact ⟨h.mode_wait, h.registers_wait, WiredKeypad.presses_changes_of_nil hk _⟩

/-- After the instruction at the program counter has begun to wait for a key, whatever was pressed
or is held by then: a step before which no pin rose changes nothing, and the first step before which
some did takes one press and moves on without executing anything. -/
theorem wait_for_press (h : m.Executes (.waitForKey x)) (events : List WaitEvent) :
    let s := m.step.state.after (events.map WaitEvent.action)
    let edges := m.step.state.keypad.risingEdges (pinChanges events)
    (edges = [] →
      s.step = ⟨s, .ok .waiting, []⟩ ∧ s.mode = .waiting x ∧ s.registers = m.registers)
      ∧ (edges ≠ [] →
        (∀ early late, events = early ++ .step :: late →
          m.step.state.keypad.risingEdges (pinChanges early) = []) →
        ∃ key, edges[if edges.length ≤ 16 then 0 else edges.length - 16]? = some key
          ∧ s.keypad.presses = key :: s.step.state.keypad.presses
          ∧ s.step = ⟨{ s with
              keypad := { s.keypad with presses := s.keypad.presses.tail }
              registers := (m.registers.set x (.ofNat key.val)).advance
              mode := .running }, .ok (.received key), [.receivedKey key]⟩
          ∧ s.step.state.registers.pc.toNat = m.registers.pc.toNat + 2) := by
  intro s edges
  refine ⟨fun hnone => ?_, fun hsome hfirst => ?_⟩
  · obtain ⟨hm, hr, hp⟩ := h.after_wait fun _ _ he => risingEdges_before_step hnone he
    refine ⟨step_of_waiting_nil hm ?_, hm, hr⟩
    rw [hp]
    exact congrArg (latest 16) hnone
  · obtain ⟨hm, hr, hp⟩ := h.after_wait hfirst
    obtain ⟨key, presses, hlatest, hkey⟩ := latest_eq_cons (Nat.succ_pos 15) hsome
    have hpending : s.keypad.presses = key :: presses := hp.trans hlatest
    have hstep := step_of_waiting_cons hm hpending
    refine ⟨key, ?_, ?_, ?_, ?_⟩
    · have hindex : (if edges.length ≤ 16 then 0 else edges.length - 16) = edges.length - 16 := by
        split_ifs <;> omega
      rw [hindex]
      exact hkey
    · rw [hstep, hpending]
    · rw [hstep, hpending, ← hr]
      rfl
    · rw [hstep, ← h.toNat_pc_add, ← hr]
      rfl

/-- Key 9 is pressed before the wait and held through a step of it. Then the keys rise in turn, one
more often than there is room for, so the first of them is lost. -/
theorem wait_for_press_seventeen :
    let program := headless [0xF3, 0x0A]
    let m := { program with keypad := program.keypad.setPin 9 true }
    let turns : List WaitEvent := .step :: (List.range 17).flatMap fun k =>
      [.pin .reset, .pin (.set (.ofNat 16 k) true)]
    let s := m.step.state.after (turns.map WaitEvent.action)
    m.Executes (.waitForKey 3) ∧ m.step.state.step.result = .ok .waiting
      ∧ s.step.result = .ok (.received 1) ∧ s.step.state.registers.pc.toNat = 0x202 := by
  intro program m turns s
  have h : m.Executes (.waitForKey 3) := ⟨by decide +kernel, by decide +kernel, by decide +kernel⟩
  have hfirst : ∀ early late, turns = early ++ .step :: late →
      m.step.state.keypad.risingEdges (pinChanges early) = [] := by
    rintro (_ | ⟨e, early⟩) late he
    · rfl
    · have hmem : WaitEvent.step ∈ turns.tail := by
        rw [he]
        simp
      exact absurd hmem (by decide)
  obtain ⟨hwait, -⟩ := wait_for_press h []
  obtain ⟨-, hpress⟩ := wait_for_press h turns
  obtain ⟨key, hkey, -, hstep, hpc⟩ := hpress (by decide +kernel) hfirst
  have hsecond : (m.step.state.keypad.risingEdges (pinChanges turns))[1]? = some 1 := by
    decide +kernel
  obtain rfl : 1 = key := Option.some.inj (hsecond.symm.trans hkey)
  refine ⟨h, ?_, ?_, hpc.trans (by decide +kernel)⟩
  · exact congrArg Turn.result (hwait rfl).1
  · rw [hstep]

end Machine

end Chip8
