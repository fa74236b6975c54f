import Chip8.Proofs.Likeness
import Chip8.Proofs.Subroutine

/-!
# What a machine asks of its display and its keypad

Each step lets the keypad take in its input, and after that makes one more call at most. Which one
follows from the state before the step: `Machine.call?`. Nothing but a step calls anything. So the
calls of a whole run are known from the states that it goes through (`Machine.callsIn`), and
peripherals that keep a list of their calls have listed these and no others (`calls_listed`).
-/

namespace Chip8

variable {δ κ : Type}

/-- A call on what is attached to a machine. -/
inductive HookCall where
  | display (call : DisplayCall)
  | keypad (call : KeypadCall)
  deriving DecidableEq, Repr

namespace HookCall

def display? : HookCall → Option DisplayCall
  | .display call => some call
  | .keypad _ => none

def keypad? : HookCall → Option KeypadCall
  | .display _ => none
  | .keypad call => some call

end HookCall

/-- The call that an instruction makes when it is executed, if it makes one. The operands are those
before the execution, and a register that names no key asks for none. -/
def Instruction.call? (i : Instruction) (m : Machine δ κ) : Option HookCall :=
  let r := m.registers
  match i with
  | .clearScreen => some (.display .clear)
  | .draw x y rows =>
    some (.display (.draw (r.get x) (r.get y) (m.memory.bytesFrom r.index.toNat rows.val)))
  | .skipIf (.keyDown x) | .skipIf (.keyUp x) =>
    if h : (r.get x).toNat < 16 then some (.keypad (.isDown ⟨(r.get x).toNat, h⟩)) else none
  | .waitForKey _ => some (.keypad .clearPresses)
  | _ => none

namespace Machine

/-- The call that a step makes after the keypad has taken in its input, if it makes one. -/
def call? (m : Machine δ κ) : Option HookCall :=
  match m.mode with
  | .waiting _ => some (.keypad .takePress)
  | _ => m.upcoming?.bind fun i => i.call? m

variable [Display δ] [Keypad κ] {ρ : Type}

/-- The calls that the machine makes on its own in a request, in order. -/
def calls (m : Machine δ κ) : Request δ κ ρ → List HookCall
  | .step => .keypad .update :: m.call?.toList
  | _ => []

/-- The calls that the machine makes on its own while it serves some requests. -/
def callsIn (m : Machine δ κ) : List (Request δ κ ρ) → List HookCall
  | [] => []
  | r :: requests => m.calls r ++ (m.request r).2.callsIn requests

end Machine

/-- What a host asks of traced peripherals, it asks of what is inside, and that is no call. -/
def Request.traced {ρ : Type} : Request δ κ ρ → Request (TracedDisplay δ) (TracedKeypad κ) ρ
  | .load program => .load program
  | .start address => .start address
  | .step => .step
  | .tick elapsed => .tick elapsed
  | .onMemory use => .onMemory use
  | .onDisplay use =>
    .onDisplay fun t => ((use t.display).1, { t with display := (use t.display).2 })
  | .onKeypad use => .onKeypad fun t => ((use t.keypad).1, { t with keypad := (use t.keypad).2 })

def TracedDisplay.Of (t : TracedDisplay δ) (d : δ) : Prop :=
  t.display = d

def TracedKeypad.Of (t : TracedKeypad κ) (k : κ) : Prop :=
  t.keypad = k

section Tracing

theorem displaysAgree_traced [Display δ] :
    DisplaysAgree (TracedDisplay.Of : TracedDisplay δ → δ → Prop) where
  clear := by
    rintro t _ rfl
    rfl
  draw x y sprite := by
    rintro t _ rfl
    exact ⟨rfl, rfl⟩

theorem keypadsAgree_traced [Keypad κ] :
    KeypadsAgree (TracedKeypad.Of : TracedKeypad κ → κ → Prop) where
  isDown key := by
    rintro t _ rfl
    exact ⟨rfl, rfl⟩
  clearPresses := by
    rintro t _ rfl
    rfl
  update := by
    rintro t _ rfl
    rfl

theorem answerAlike_takePress_traced [Keypad κ] :
    AnswerAlike (TracedKeypad.Of : TracedKeypad κ → κ → Prop) Keypad.takePress
      Keypad.takePress := by
  rintro t _ rfl
  exact ⟨rfl, rfl⟩

theorem Request.matches_traced {ρ : Type} (r : Request δ κ ρ) :
    r.traced.Matches TracedDisplay.Of TracedKeypad.Of r := by
  cases r with
  | load program => exact .load program
  | start address => exact .start address
  | step => exact .step
  | tick elapsed => exact .tick elapsed
  | onMemory use => exact .onMemory use
  | onDisplay use =>
    refine .onDisplay ?_
    rintro t _ rfl
    exact ⟨rfl, rfl⟩
  | onKeypad use =>
    refine .onKeypad ?_
    rintro t _ rfl
    exact ⟨rfl, rfl⟩

end Tracing

/-- What traced peripherals have listed from one state to another is these calls, each the ones that
were made on it. -/
structure Listed (calls : List HookCall) (m next : Machine (TracedDisplay δ) (TracedKeypad κ)) :
    Prop where
  display : next.display.calls.toList
    = m.display.calls.toList ++ calls.filterMap HookCall.display?
  keypad : next.keypad.calls.toList = m.keypad.calls.toList ++ calls.filterMap HookCall.keypad?

section Lists

variable {m next last : Machine (TracedDisplay δ) (TracedKeypad κ)} {calls more : List HookCall}

theorem listed_nil (hd : next.display.calls = m.display.calls)
    (hk : next.keypad.calls = m.keypad.calls) : Listed [] m next where
  display := by rw [hd, List.filterMap_nil, List.append_nil]
  keypad := by rw [hk, List.filterMap_nil, List.append_nil]

theorem Listed.trans (h : Listed calls m next) (h' : Listed more next last) :
    Listed (calls ++ more) m last where
  display := by rw [h'.display, h.display, List.filterMap_append, List.append_assoc]
  keypad := by rw [h'.keypad, h.keypad, List.filterMap_append, List.append_assoc]

variable [Keypad κ]

theorem listed_polled (m : Machine (TracedDisplay δ) (TracedKeypad κ)) :
    Listed [.keypad .update] m m.polled where
  display := (List.append_nil _).symm
  keypad := Array.toList_push

variable [Display δ]

/-- An instruction makes the call that it is said to make, and no other. -/
theorem listed_of_follows {i : Instruction} (hrow : i.Follows m next) :
    Listed (i.call? m).toList m next := by
  constructor
  · rw [hrow.display]
    cases i with
    | clearScreen | draw x y rows => exact Array.toList_push
    | skipIf c =>
      cases c with
      | keyDown x | keyUp x =>
        simp only [Instruction.displayAfter, Instruction.call?]
        split_ifs <;> exact (List.append_nil _).symm
      | _ => exact (List.append_nil _).symm
    | _ => exact (List.append_nil _).symm
  · rw [hrow.keypad]
    cases i with
    | waitForKey x => exact Array.toList_push
    | skipIf c =>
      cases c with
      | keyDown x | keyUp x =>
        simp only [Instruction.keypadAfter, Instruction.call?, Registers.keyAnswer]
        split_ifs
        · exact Array.toList_push
        · exact (List.append_nil _).symm
      | _ => exact (List.append_nil _).symm
    | _ => exact (List.append_nil _).symm

/-- The rest of a step makes the call that follows from the state, and no other. -/
theorem listed_proceed (m : Machine (TracedDisplay δ) (TracedKeypad κ)) :
    Listed m.call?.toList m.polled m.polled.proceed.state := by
  rw [← Machine.step_eq_proceed]
  rcases hi : m.upcoming? with _ | i
  · have hs := m.steps_step
    have hx := Machine.result_ne_executed hi
    generalize m.step.state = next, m.step.result = result at hs hx ⊢
    cases hs with
    | idle hm | halted hm | failed hm ho =>
      simp only [Machine.call?, hm, hi]
      exact listed_nil rfl rfl
    | executed hm hf ho hrow => exact (hx rfl).elim
    | waited hm hk | received hm hk =>
      simp only [Machine.call?, hm]
      exact ⟨(List.append_nil _).symm, (congrArg (fun t => t.2.calls.toList) hk).symm.trans
        Array.toList_push⟩
  · have hx := Machine.upcoming?_eq_some_iff.1 hi
    simp only [Machine.call?, hx.mode, hi]
    exact listed_of_follows hx.row

theorem listed_request {ρ : Type} (m : Machine (TracedDisplay δ) (TracedKeypad κ))
    (r : Request δ κ ρ) : Listed (m.calls r.traced) m (m.request r.traced).2 := by
  cases r with
  | step => exact (listed_polled m).trans (listed_proceed m)
  | load program =>
    show Listed [] m (m.load program).state
    rcases m.load_cases program with ⟨-, memory, hl⟩ | ⟨-, hl⟩ <;> rw [hl] <;>
      exact listed_nil rfl rfl
  | _ => exact listed_nil rfl rfl

end Lists

namespace Machine

section Alike

variable {ε ι : Type} {D : δ → ε → Prop} {K : κ → ι → Prop} {a : Machine δ κ} {b : Machine ε ι}

theorem Alike.upcoming? (h : a.Alike D K b) : a.upcoming? = b.upcoming? := by
  unfold Machine.upcoming?
  rw [h.mode, h.fetch]
  split
  · rw [h.obstacle?_instruction]
  · rfl

theorem Alike.call? (h : a.Alike D K b) : a.call? = b.call? := by
  have hi : ∀ i : Instruction, i.call? a = i.call? b := fun i => by
    simp only [Instruction.call?, h.registers, h.memory]
  simp only [Machine.call?, h.mode, h.upcoming?, hi]

end Alike

variable [Display δ] [Keypad κ] {ρ : Type}

/-- Tracing changes nothing, and lists the calls that follow from the states. -/
theorem serve_traced {t : Machine (TracedDisplay δ) (TracedKeypad κ)} {m : Machine δ κ}
    (h : t.Alike TracedDisplay.Of TracedKeypad.Of m) (requests : List (Request δ κ ρ)) :
    (t.serve (requests.map Request.traced)).1 = (m.serve requests).1
      ∧ (t.serve (requests.map Request.traced)).2.Alike TracedDisplay.Of TracedKeypad.Of
        (m.serve requests).2
      ∧ Listed (m.callsIn requests) t (t.serve (requests.map Request.traced)).2 := by
  induction requests generalizing t m with
  | nil => exact ⟨rfl, h, listed_nil rfl rfl⟩
  | cons r requests ih =>
    have hcalls : t.calls r.traced = m.calls r := by
      cases r with
      | step => simp only [Request.traced, calls, h.call?]
      | _ => rfl
    obtain ⟨hreply, hnext⟩ := h.request_of_matches displaysAgree_traced keypadsAgree_traced
      r.matches_traced fun _ _ => answerAlike_takePress_traced
    obtain ⟨hreplies, hlast, hlisted⟩ := ih hnext
    refine ⟨List.cons_eq_cons.2 ⟨hreply, hreplies⟩, hlast, ?_⟩
    rw [callsIn, ← hcalls]
    exact (listed_request t r).trans hlisted

section Keys

variable {m : Machine δ κ} {x : Register}

omit [Display δ] in
/-- A register that names no key counts as a key that is up. -/
theorem fst_keyAnswer_of_large (h : 16 ≤ (m.registers.get x).toNat) :
    (m.registers.keyAnswer m.polled.keypad x).1 = false := by
  rw [Registers.keyAnswer, dif_neg (Nat.not_lt.2 h)]

theorem Executes.pc_keyDown (hx : m.Executes (.skipIf (.keyDown x)))
    (h : 16 ≤ (m.registers.get x).toNat) :
    m.step.state.registers.pc.toNat = m.registers.pc.toNat + 2 := by
  refine hx.row.pc.trans (if_neg ?_)
  show (m.registers.keyAnswer m.polled.keypad x).1 ≠ true
  rw [fst_keyAnswer_of_large h]
  exact Bool.false_ne_true

theorem Executes.pc_keyUp (hx : m.Executes (.skipIf (.keyUp x)))
    (h : 16 ≤ (m.registers.get x).toNat) :
    m.step.state.registers.pc.toNat = m.registers.pc.toNat + 4 := by
  refine hx.row.pc.trans (if_pos ?_)
  show (!(m.registers.keyAnswer m.polled.keypad x).1) = true
  rw [fst_keyAnswer_of_large h]
  rfl

end Keys

/-- Peripherals that list their calls list exactly those that follow from the states of a run, and
listing them makes no difference to the run. In each step the keypad takes in its input before
anything else, whatever the machine is doing. A register that names no key is not asked about, and
the key counts as up. -/
theorem calls_listed (m : Machine δ κ) (requests : List (Request δ κ ρ)) :
    let t := m.traced.serve (requests.map Request.traced)
    t.1 = (m.serve requests).1
      ∧ t.2.Alike TracedDisplay.Of TracedKeypad.Of (m.serve requests).2
      ∧ t.2.display.calls.toList = (m.callsIn requests).filterMap HookCall.display?
      ∧ t.2.keypad.calls.toList = (m.callsIn requests).filterMap HookCall.keypad?
      ∧ (∀ s : Machine (TracedDisplay δ) (TracedKeypad κ),
        s.step = s.polled.proceed ∧ Listed [.keypad .update] s s.polled
          ∧ Listed s.call?.toList s.polled s.polled.proceed.state)
      ∧ ∀ (s : Machine δ κ) x, 16 ≤ (s.registers.get x).toNat →
        (s.Executes (.skipIf (.keyDown x)) →
          s.step.state.registers.pc.toNat = s.registers.pc.toNat + 2)
        ∧ (s.Executes (.skipIf (.keyUp x)) →
          s.step.state.registers.pc.toNat = s.registers.pc.toNat + 4) := by
  intro t
  have htraced : m.traced.Alike TracedDisplay.Of TracedKeypad.Of m :=
    ⟨rfl, rfl, rfl, rfl, rfl, rfl, rfl, rfl⟩
  obtain ⟨hreplies, halike, hlisted⟩ := serve_traced htraced requests
  refine ⟨hreplies, halike, hlisted.display.trans (List.nil_append _),
    hlisted.keypad.trans (List.nil_append _), fun s => ?_, fun s x h => ?_⟩
  · exact ⟨step_eq_proceed s, listed_polled s, listed_proceed s⟩
  · exact ⟨fun hx => hx.pc_keyDown h, fun hx => hx.pc_keyUp h⟩

/-- V0 is 31 and names no key, so nobody is asked and the next instruction is passed over. Two rows
of the glyph of 0 are drawn, and then the machine waits for a key. -/
theorem calls_listed_unasked :
    let m := headless [0x60, 0x1F, 0xE0, 0xA1, 0x00, 0xE0, 0xD0, 0x02, 0xF1, 0x0A]
    let requests : List (Request Headless WiredKeypad Unit) :=
      [.step, .step, .tick 1, .step, .step, .step]
    let t := m.traced.serve (requests.map Request.traced)
    m.callsIn requests = [.keypad .update, .keypad .update, .keypad .update,
        .display (.draw 31 31 [0xF0, 0x90]), .keypad .update, .keypad .clearPresses,
        .keypad .update, .keypad .takePress]
      ∧ t.2.display.calls.toList = [.draw 31 31 [0xF0, 0x90]]
      ∧ t.2.keypad.calls.toList
        = [.update, .update, .update, .update, .clearPresses, .update, .takePress]
      ∧ m.step.state.step.state.registers.pc.toNat = 0x206 := by
  intro m requests t
  obtain ⟨-, -, hdisplay, hkeypad, -, hkeys⟩ := calls_listed m requests
  have hcalls : m.callsIn requests = [.keypad .update, .keypad .update, .keypad .update,
      .display (.draw 31 31 [0xF0, 0x90]), .keypad .update, .keypad .clearPresses,
      .keypad .update, .keypad .takePress] := by decide +kernel
  have hlarge : 16 ≤ (m.step.state.registers.get 0).toNat := by decide +kernel
  have hx : m.step.state.Executes (.skipIf (.keyUp 0)) :=
    upcoming?_eq_some_iff.1 (by decide +kernel)
  rw [hcalls] at hdisplay hkeypad
  refine ⟨hcalls, hdisplay, hkeypad, ((hkeys m.step.state 0 hlarge).2 hx).trans ?_⟩
  decide +kernel

end Machine

end Chip8
