import Chip8.Proofs.StepCases

/-!
# Histories of a machine

Everything that can happen to a machine, in any order: it steps, time passes, its host loads or
starts a program, writes to memory, or does something to the display or the keypad. Writes and
operations of the host are functions on memory and on the peripherals, so nothing the host can do
is left out.
-/

namespace Chip8

variable {δ κ : Type}

inductive Action (δ κ : Type) where
  | load (program : List UInt8)
  | start (address : UInt16)
  | step
  | tick (elapsed : Nat)
  | onMemory (change : Memory → Memory)
  | onDisplay (change : δ → δ)
  | onKeypad (change : κ → κ)

/-- Whether an action starts the machine anew. -/
def Action.restarts : Action δ κ → Bool
  | .load _ | .start _ => true
  | _ => false

/-- Fresh memory with a program in it. -/
def Memory.holding (program : List UInt8) : Memory :=
  ⟨overwrite blank.bytes programStart.toNat program⟩

namespace Machine

section Host

variable (m : Machine δ κ) (program : List UInt8)

theorem load_of_fits {program : List UInt8} (h : program.length ≤ 3584) :
    m.load program
      = ⟨({ m with memory := .holding program }.start programStart).state, .ok program.length,
        [.initialized programStart, .loaded program.length]⟩ := by
  have hfits : programStart.toNat + program.length ≤ 4096 := Nat.add_le_add_left h 512
  rw [load, Memory.load, if_pos hfits]
  rfl

theorem load_of_long {program : List UInt8} (h : 3584 < program.length) :
    m.load program
      = ⟨{ m with mode := .idle }, .error (.programTooLarge program.length programStart 4096),
        []⟩ := by
  have hlong : ¬ programStart.toNat + program.length ≤ 4096 :=
    Nat.not_le.2 (Nat.add_lt_add_left h 512)
  rw [load, Memory.load, if_neg hlong]

/-- A program that fits is copied into fresh memory and started; one that does not idles the
machine. -/
theorem load_cases :
    (programStart.toNat + program.length ≤ 4096
        ∧ ∃ memory, (m.load program).state = ({ m with memory }.start programStart).state)
      ∨ (4096 < programStart.toNat + program.length
        ∧ (m.load program).state = { m with mode := .idle }) := by
  rcases Nat.lt_or_ge 3584 program.length with h | h
  · exact .inr ⟨Nat.add_lt_add_left h 512, by rw [m.load_of_long h]⟩
  · exact .inl ⟨Nat.add_le_add_left h 512, .holding program, by rw [m.load_of_fits h]⟩

end Host

variable [Display δ] [Keypad κ]

def act (m : Machine δ κ) : Action δ κ → Machine δ κ
  | .load program => (m.load program).state
  | .start address => (m.start address).state
  | .step => m.step.state
  | .tick elapsed => (m.tick elapsed).state
  | .onMemory change => { m with memory := change m.memory }
  | .onDisplay change => { m with display := change m.display }
  | .onKeypad change => { m with keypad := change m.keypad }

def after (m : Machine δ κ) (history : List (Action δ κ)) : Machine δ κ :=
  history.foldl act m

variable (m : Machine δ κ)

@[simp] theorem after_nil : m.after [] = m := rfl

@[simp] theorem after_cons (a : Action δ κ) (history : List (Action δ κ)) :
    m.after (a :: history) = (m.act a).after history := rfl

theorem after_append (history later : List (Action δ κ)) :
    m.after (history ++ later) = (m.after history).after later :=
  List.foldl_append

theorem after_concat (history : List (Action δ κ)) (a : Action δ κ) :
    m.after (history ++ [a]) = (m.after history).act a :=
  m.after_append history [a]

end Machine

end Chip8
