import Chip8.Proofs.Subroutine
import Mathlib.Data.List.Induction

/-!
# The life of a machine

What a machine is about to do, from all that happened to it. It is idle as long as no program was
loaded or started, and again after a load that failed (`mode_after_eq_idle_iff`). Once it is halted,
only a load or a start gets it out of there (`mode_after_of_halted`). It waits for a key from the
instruction that does so until it has one, unless it is loaded or started before
(`mode_act_eq_waiting_iff`, `mode_act_ne_waiting_iff`). `life_cycle` has all of this.
-/

namespace Chip8

variable {δ κ : Type}

section Restarts

variable {history : List (Action δ κ)} {a : Action δ κ}

/-- The last load or start in a history, whether the load failed or not. -/
def lastRestart? (history : List (Action δ κ)) : Option (Action δ κ) :=
  (history.filter Action.restarts).getLast?

theorem lastRestart?_concat (h : a.restarts = true) : lastRestart? (history ++ [a]) = some a := by
  rw [lastRestart?, List.filter_append, List.filter_cons_of_pos h, List.filter_nil,
    List.getLast?_concat]

theorem lastRestart?_concat_of_not (h : a.restarts = false) :
    lastRestart? (history ++ [a]) = lastRestart? history := by
  rw [lastRestart?, List.filter_append, List.filter_cons_of_neg (by simp [h]), List.filter_nil,
    List.append_nil, lastRestart?]

/-- A new machine that has been through the history has no program: none was ever loaded or started,
or the last load was of one that does not fit. -/
def NoProgram (history : List (Action δ κ)) : Prop :=
  match lastRestart? history with
  | none => True
  | some (.load program) => 3584 < program.length
  | some _ => False

end Restarts

theorem Instruction.obstacle?_ne_notInitialized (i : Instruction) (m : Machine δ κ) :
    i.obstacle? m ≠ some .notInitialized := by
  intro h
  cases i with
  | ret | call a =>
    simp only [obstacle?] at h
    split_ifs at h
    cases h
  | draw x y rows | storeBcd x | storeRegisters x | loadRegisters x =>
    obtain ⟨-, -, hfault⟩ := Memory.beyond?_eq_some_iff.1 h
    cases hfault
  | _ => cases h

namespace Machine

variable {m : Machine δ κ} {a : Action δ κ} {x : Register} {fault : Fault}

theorem obstacle?_ne_notInitialized (m : Machine δ κ) : m.obstacle? ≠ some .notInitialized := by
  intro h
  unfold obstacle? at h
  split_ifs at h
  · cases h
  · split at h
    · cases h
    · exact Instruction.obstacle?_ne_notInitialized _ _ h

variable [Display δ] [Keypad κ]

/-- What an action other than a load or a start can make of the mode. -/
inductive ModeAfter (m : Machine δ κ) (a : Action δ κ) : Mode → Prop
  | kept : ModeAfter m a m.mode
  | halted {fault : Fault} (ha : a = .step) (hm : m.mode = .running)
    (hr : m.step.result = .error fault) (hf : fault ≠ .notInitialized) :
    ModeAfter m a (.halted fault)
  | waits {x : Register} (ha : a = .step) (hx : m.Executes (.waitForKey x)) :
    ModeAfter m a (.waiting x)
  | resumed {x : Register} {key : Key} (ha : a = .step) (hm : m.mode = .waiting x)
    (hr : m.step.result = .ok (.received key)) : ModeAfter m a .running

theorem modeAfter_step (m : Machine δ κ) : m.ModeAfter .step m.step.state.mode := by
  have hs := m.steps_step
  have hkept : ∀ mode, mode = m.mode → m.ModeAfter .step mode := by
    rintro _ rfl
    exact .kept
  rcases hr : m.step.result with f | outcome <;> rw [hr] at hs
  all_goals generalize m.step.state = next at hs ⊢
  · cases hs with
    | idle hm | halted hm => exact hkept _ rfl
    | failed hm ho =>
      refine .halted rfl hm hr ?_
      rintro rfl
      exact obstacle?_ne_notInitialized m ho
  · cases hs with
    | @executed i _ hm hf ho hrow =>
      rw [hrow.mode]
      cases i with
      | waitForKey x => exact .waits rfl ⟨hm, hf, hr⟩
      | _ => exact hkept _ rfl
    | waited hm hk => exact hkept _ rfl
    | received hm hk => exact .resumed rfl hm hr

theorem modeAfter_act (m : Machine δ κ) (ha : a.restarts = false) :
    m.ModeAfter a (m.act a).mode := by
  cases a with
  | load program | start address => cases ha
  | step => exact m.modeAfter_step
  | _ => exact .kept

theorem mode_act_of_restarts (m : Machine δ κ) (ha : a.restarts = true) :
    (m.act a).mode = .idle ∨ (m.act a).mode = .running := by
  cases a with
  | start address => exact .inr rfl
  | load program =>
    simp only [act]
    rcases m.load_cases program with ⟨-, memory, hl⟩ | ⟨-, hl⟩ <;> rw [hl]
    · exact .inr rfl
    · exact .inl rfl
  | _ => cases ha

theorem mode_act_ne_waiting (m : Machine δ κ) (ha : a.restarts = true) (x : Register) :
    (m.act a).mode ≠ .waiting x := by
  rcases m.mode_act_of_restarts ha with h | h <;> rw [h] <;> nofun

section Idle

theorem mode_act_eq_idle_iff (ha : a.restarts = false) :
    (m.act a).mode = .idle ↔ m.mode = .idle := by
  have h := m.modeAfter_act ha
  generalize (m.act a).mode = mode at h ⊢
  cases h with
  | kept => rfl
  | halted _ hm _ _ | resumed _ hm _ => simp [hm]
  | waits _ hx => simp [hx.mode]

variable (display : δ) (keypad : κ) (random : Keystream) (history : List (Action δ κ))

/-- A machine is idle as long as it has no program. -/
theorem mode_after_eq_idle_iff :
    ((new display keypad random).after history).mode = .idle ↔ NoProgram history := by
  induction history using List.reverseRecOn with
  | nil => exact iff_of_true rfl trivial
  | append_singleton history a ih =>
    rw [after_concat]
    rcases hr : a.restarts with _ | _
    · rw [mode_act_eq_idle_iff hr, ih, NoProgram, NoProgram, lastRestart?_concat_of_not hr]
    · rw [NoProgram, lastRestart?_concat hr]
      cases a with
      | start address => exact iff_of_false nofun id
      | load program =>
        simp only [act]
        rcases Nat.lt_or_ge 3584 program.length with hlong | hfits
        · rw [load_of_long _ hlong]
          exact iff_of_true rfl hlong
        · rw [load_of_fits _ hfits]
          exact iff_of_false nofun (Nat.not_lt.2 hfits)
      | _ => cases hr

theorem step_eq_notInitialized_iff {m : Machine δ κ} (hm : m.mode ≠ .halted .notInitialized) :
    m.step.result = .error .notInitialized ↔ m.mode = .idle := by
  constructor
  · intro h
    have hs := m.steps_step
    rw [h] at hs
    generalize m.step.state = next at hs
    cases hs with
    | idle hidle => exact hidle
    | halted hhalted => exact absurd hhalted hm
    | failed _ ho => exact absurd ho (obstacle?_ne_notInitialized m)
  · intro h
    rw [step_of_idle h]

theorem mode_after_ne_halted_notInitialized :
    ((new display keypad random).after history).mode ≠ .halted .notInitialized := by
  induction history using List.reverseRecOn with
  | nil => nofun
  | append_singleton history a ih =>
    rw [after_concat]
    generalize (new display keypad random).after history = m at ih
    rcases hr : a.restarts with _ | _
    · have h := m.modeAfter_act hr
      generalize (m.act a).mode = mode at h ⊢
      cases h with
      | kept => exact ih
      | halted _ _ _ hf => simpa using hf
      | _ => nofun
    · rcases m.mode_act_of_restarts hr with h | h <;> rw [h] <;> nofun

end Idle

section Halted

/-- Nothing but a load or a start ends a halt. -/
theorem mode_after_of_halted (hm : m.mode = .halted fault) {later : List (Action δ κ)}
    (hl : ∀ a ∈ later, a.restarts = false) : (m.after later).mode = .halted fault := by
  induction later generalizing m with
  | nil => exact hm
  | cons a later ih =>
    refine ih ?_ fun b hb => hl b (List.mem_cons_of_mem _ hb)
    have h := m.modeAfter_act (hl a List.mem_cons_self)
    generalize (m.act a).mode = mode at h ⊢
    cases h with
    | kept => exact hm
    | halted _ hr _ _ | resumed _ hr _ => cases hm.symm.trans hr
    | waits _ hx => cases hm.symm.trans hx.mode

theorem mode_step_of_fail (hm : m.mode = .running) (hr : m.step.result = .error fault) :
    m.step.state.mode = .halted fault := by
  have hs := m.steps_step
  rw [hr] at hs
  generalize m.step.state = next at hs ⊢
  cases hs with
  | idle h | halted h => cases hm.symm.trans h
  | failed _ _ => rfl

end Halted

section Waiting

/-- A wait is entered by the instruction that waits and in no other way. -/
theorem mode_act_eq_waiting_iff (hm : m.mode ≠ .waiting x) :
    (m.act a).mode = .waiting x ↔ a = .step ∧ m.Executes (.waitForKey x) := by
  constructor
  · intro h
    rcases hr : a.restarts with _ | _
    · have hmode := m.modeAfter_act hr
      generalize (m.act a).mode = mode at h hmode
      cases hmode with
      | kept => exact absurd h hm
      | halted _ _ _ _ | resumed _ _ _ => cases h
      | waits ha hx =>
        cases h
        exact ⟨ha, hx⟩
    · exact absurd h (m.mode_act_ne_waiting hr x)
  · rintro ⟨rfl, hx⟩
    exact hx.row.mode

/-- A wait is left with a key, or by a load or a start. -/
theorem mode_act_ne_waiting_iff (hm : m.mode = .waiting x) :
    (m.act a).mode ≠ .waiting x
      ↔ a.restarts = true ∨ a = .step ∧ ∃ key, m.step.result = .ok (.received key) := by
  constructor
  · intro h
    rcases hr : a.restarts with _ | _
    · have hmode := m.modeAfter_act hr
      generalize (m.act a).mode = mode at h hmode
      cases hmode with
      | kept => exact absurd hm h
      | halted _ hrun _ _ => cases hm.symm.trans hrun
      | waits _ hx => cases hm.symm.trans hx.mode
      | resumed ha _ hkey => exact .inr ⟨ha, _, hkey⟩
    · exact .inl rfl
  · rintro (hr | ⟨rfl, key, hkey⟩)
    · exact m.mode_act_ne_waiting hr x
    · have hs := m.steps_step
      rw [hkey] at hs
      show m.step.state.mode ≠ _
      generalize m.step.state = next at hs ⊢
      cases hs with
      | received _ _ => nofun

end Waiting

/-- What a machine is about to do follows from its history. It steps without a program exactly if
none was loaded or started, or the last load failed; a fault is reported by every later step, which
changes nothing, until the next load or start; a wait begins with the instruction that waits and
ends with a key, or with a load or a start; and a load fails for the length of the program alone. -/
theorem life_cycle (display : δ) (keypad : κ) (random : Keystream) (history : List (Action δ κ)) :
    let m := (new display keypad random).after history
    (m.mode = .idle ↔ NoProgram history)
      ∧ (m.step.result = .error .notInitialized ↔ NoProgram history)
      ∧ (∀ fault, m.mode = .running → m.step.result = .error fault →
        ∀ later, (∀ a ∈ later, a.restarts = false) →
          let s := m.step.state.after later
          s.step.result = .error fault ∧ s.step.state = { s with keypad := Keypad.update s.keypad })
      ∧ (∀ a x, m.mode ≠ .waiting x →
        ((m.act a).mode = .waiting x ↔ a = .step ∧ m.Executes (.waitForKey x)))
      ∧ (∀ a x, m.mode = .waiting x →
        ((m.act a).mode ≠ .waiting x
          ↔ a.restarts = true ∨ a = .step ∧ ∃ key, m.step.result = .ok (.received key)))
      ∧ ∀ program,
        if 3584 < program.length then
          (m.load program).result = .error (.programTooLarge program.length 0x200 4096)
            ∧ (m.load program).state = { m with mode := .idle }
        else (m.load program).result = .ok program.length := by
  intro m
  have hidle : m.mode = .idle ↔ NoProgram history :=
    mode_after_eq_idle_iff display keypad random history
  have hhalted : m.mode ≠ .halted .notInitialized :=
    mode_after_ne_halted_notInitialized display keypad random history
  refine ⟨hidle, (step_eq_notInitialized_iff hhalted).trans hidle, ?_,
    fun a x => mode_act_eq_waiting_iff, fun a x => mode_act_ne_waiting_iff, fun program => ?_⟩
  · intro fault hm hr later hl s
    have hs : s.mode = .halted fault := mode_after_of_halted (mode_step_of_fail hm hr) hl
    rw [step_of_halted hs]
    exact ⟨rfl, rfl⟩
  · split_ifs with hlong
    · rw [m.load_of_long hlong]
      exact ⟨rfl, rfl⟩
    · rw [m.load_of_fits (Nat.not_lt.1 hlong)]

/-- A return from nowhere halts the machine. A better program does not help it, nor does a key. -/
theorem life_cycle_halted :
    let history : List (Action Headless WiredKeypad) := [.load [0x00, 0xEE], .tick 1]
    let m := (new {} .idle (.ofSeed 0)).after history
    let later : List (Action Headless WiredKeypad) :=
      [.onMemory fun _ => .holding [0x12, 0x00], .step, .onKeypad (·.setPin 5 true)]
    m.mode = .running ∧ ¬ NoProgram history
      ∧ (m.step.state.after later).step.result = .error .stackUnderflow := by
  intro history m later
  obtain ⟨hidle, -, hhalted, -⟩ :=
    life_cycle ({} : Headless) (.idle : WiredKeypad) (.ofSeed 0) history
  have hm : m.mode = .running := by decide +kernel
  have hr : m.step.result = .error .stackUnderflow := by decide +kernel
  have hl : ∀ a ∈ later, a.restarts = false := by simp [later, Action.restarts]
  refine ⟨hm, fun h => ?_, (hhalted _ hm hr later hl).1⟩
  exact absurd (hm.symm.trans (hidle.2 h)) (by decide)

end Machine

end Chip8
