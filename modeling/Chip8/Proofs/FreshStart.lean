import Chip8.Proofs.Likeness

/-!
# A fresh start

Loading a program leaves nothing of what the machine was but its display, its keypad and its random
numbers, and starting it leaves the memory besides (`Fresh`). So two machines that agree in these
cannot be told apart from then on, whatever either did before (`load_forgets`). Cells of the stack
keep what was in them, but nothing ever reads it.
-/

namespace Chip8

/-- Glyphs in front, the program from its place on, and zeros elsewhere. -/
theorem Memory.byteAt_holding {program : List UInt8} (hfits : program.length ≤ 3584) (a : Nat) :
    (holding program).byteAt a =
      if a < 0x50 then glyphs.getD a 0
      else if 0x200 ≤ a then program.getD (a - 0x200) 0
      else 0 := by
  have hglyphs : glyphs.length = 0x50 := rfl
  have hstart : programStart.toNat = 0x200 := rfl
  rcases Nat.lt_or_ge a 4096 with hin | hout
  · have hblank : (blank.bytes)[a] = glyphs.getD a 0 := by
      rw [getElem_eq_byteAt _ hin, byteAt_blank]
    rw [← getElem_eq_byteAt _ hin]
    simp only [holding, getElem_overwrite, hstart, hblank]
    by_cases hprogram : 0x200 ≤ a
    · have hzero : glyphs.getD a 0 = 0 := by
        rw [List.getD_eq_getElem?_getD, List.getElem?_eq_none (by omega)]
        rfl
      rw [if_pos hprogram, if_pos hprogram, if_neg (by omega), hzero]
    · rw [if_neg hprogram, if_neg hprogram]
      split_ifs with hglyph
      · rfl
      · rw [List.getD_eq_getElem?_getD, List.getElem?_eq_none (by omega)]
        rfl
  · rw [byteAt_of_ge _ hout, if_neg (by omega), if_pos (by omega), List.getD_eq_getElem?_getD,
      List.getElem?_eq_none (by omega)]
    rfl

namespace Machine

variable {δ κ : Type}

/-- The machine `s` has just been started at an address, with what is attached to `m`. -/
structure Fresh (m s : Machine δ κ) (address : UInt16) : Prop where
  values : ∀ x, s.registers.get x = 0
  index : s.registers.index = 0
  pc : s.registers.pc = address
  stack : s.stack.toList = []
  delay : s.timers.delay = 0
  sound : s.timers.sound = 0
  debt : s.timers.debt = 0
  mode : s.mode = .running
  random : s.random = m.random
  display : s.display = m.display
  keypad : s.keypad = m.keypad

theorem fresh_start (m : Machine δ κ) (address : UInt16) :
    m.Fresh (m.start address).state address where
  values _ := Vector.getElem_replicate _
  index := rfl
  pc := rfl
  stack := CallStack.toList_clear m.stack
  delay := rfl
  sound := rfl
  debt := rfl
  mode := rfl
  random := rfl
  display := rfl
  keypad := rfl

/-- What is attached does not depend on memory, so a load leaves what a start of a machine like it
leaves. -/
theorem fresh_load (m : Machine δ κ) {program : List UInt8} (hfits : program.length ≤ 3584) :
    m.Fresh (m.load program).state programStart := by
  rw [m.load_of_fits hfits]
  exact { fresh_start { m with memory := .holding program } programStart with }

variable [Display δ] [Keypad κ]

/-- Whatever two machines with the same display, keypad and random numbers were before, nothing
tells them apart once the same program is loaded into both; nor once both are started at the same
address, if they have the same memory. -/
theorem load_forgets {program : List UInt8} (hfits : program.length ≤ 3584) {a b : Machine δ κ}
    (hdisplay : a.display = b.display) (hkeypad : a.keypad = b.keypad)
    (hrandom : a.random = b.random) :
    ((a.load program).result = .ok program.length
        ∧ a.Fresh (a.load program).state programStart
        ∧ (∀ address, (a.load program).state.memory.byteAt address =
          if address < 0x50 then glyphs.getD address 0
          else if 0x200 ≤ address then program.getD (address - 0x200) 0
          else 0)
        ∧ (a.load program).state.Inseparable (b.load program).state)
      ∧ ∀ address,
        a.Fresh (a.start address).state address ∧ (a.start address).state.memory = a.memory
          ∧ (a.memory = b.memory →
            (a.start address).state.Inseparable (b.start address).state) := by
  refine ⟨⟨?_, fresh_load a hfits, ?_, ?_⟩, fun address => ⟨fresh_start a address, rfl, ?_⟩⟩
  · rw [a.load_of_fits hfits]
  · rw [a.load_of_fits hfits]
    exact Memory.byteAt_holding hfits
  · exact (alike_load hrandom hdisplay hkeypad hfits).inseparable
  · intro hmemory
    exact (alike_start hmemory hrandom hdisplay hkeypad address).inseparable

/-- The first machine has called a subroutine and come back, so a return address is left in a cell
of its stack. A program that returns from nowhere does not find it. -/
theorem load_forgets_return_address :
    let a := (headless [0x22, 0x04, 0x00, 0x00, 0x00, 0xEE]).step.state.step.state
    let b : Machine Headless WiredKeypad := new {} .idle (.ofSeed 0)
    let requests : List (Request Headless WiredKeypad Unit) := [.tick 20000000, .step]
    a.stack.cells ≠ b.stack.cells ∧ a.stack.toList = b.stack.toList
      ∧ ((a.load [0x00, 0xEE]).state.serve requests).1
        = ((b.load [0x00, 0xEE]).state.serve requests).1
      ∧ ((a.load [0x00, 0xEE]).state.serve requests).2.mode = .halted .stackUnderflow := by
  intro a b requests
  have hfits : ([0x00, 0xEE] : List UInt8).length ≤ 3584 := by decide
  have hdisplay : a.display = b.display := by decide +kernel
  have hkeypad : a.keypad = b.keypad := by decide +kernel
  have hrandom : a.random = b.random := by decide +kernel
  obtain ⟨⟨-, -, -, hsame⟩, -⟩ := load_forgets hfits hdisplay hkeypad hrandom
  exact ⟨by decide +kernel, by decide +kernel, (hsame requests).1, by decide +kernel⟩

end Machine

end Chip8
