import Chip8.Proofs.FreshStart

/-!
# Programs in memory

A program of instructions is loaded as its image: the words of the instructions, high byte first.
What is fetched behind a load is the program again, one instruction every two bytes, and wherever
an instruction is fetched, its two bytes are what stands there (`fetch_undoes_encode`). So fetching
tells all instructions apart, and accepts no bytes but theirs.
-/

namespace Chip8

theorem Word.ofBytes_eq_iff {high low : UInt8} {w : Word} :
    ofBytes high low = w ↔ high = w.highByte ∧ low = w.lowByte := by
  constructor
  · rintro rfl
    exact ⟨(highByte_ofBytes high low).symm, (lowByte_ofBytes high low).symm⟩
  · rintro ⟨rfl, rfl⟩
    exact w.ofBytes_bytes

namespace Instruction

/-- The bytes of an instruction in memory. -/
def bytes (i : Instruction) : List UInt8 :=
  [i.encode.highByte, i.encode.lowByte]

/-- The bytes that a program is loaded as. -/
def image (program : List Instruction) : List UInt8 :=
  program.flatMap bytes

theorem length_image (program : List Instruction) :
    (image program).length = 2 * program.length := by
  induction program with
  | nil => rfl
  | cons i program ih =>
    rw [image, List.flatMap_cons, List.length_append, ← image, ih, List.length_cons]
    simp only [bytes, List.length_cons, List.length_nil]
    omega

/-- There is room for 1792 instructions from the start of programs on. -/
theorem length_image_le {program : List Instruction} (hfits : program.length ≤ 1792) :
    (image program).length ≤ 3584 := by
  rw [length_image]
  omega

theorem getElem?_image {program : List Instruction} {k : Nat} {i : Instruction}
    (h : program[k]? = some i) :
    (image program)[2 * k]? = some i.encode.highByte
      ∧ (image program)[2 * k + 1]? = some i.encode.lowByte := by
  induction program generalizing k with
  | nil => cases h
  | cons first program ih =>
    cases k with
    | zero =>
      obtain rfl : first = i := Option.some.inj h
      exact ⟨rfl, rfl⟩
    | succ k => exact ih (k := k) h

/-- The bytes of an instruction are those of its word and of no other. -/
theorem bytes_eq_iff {high low : UInt8} {i : Instruction} :
    [high, low] = i.bytes ↔ decode? (.ofBytes high low) = some i := by
  rw [decode?_eq_some_iff, Word.ofBytes_eq_iff, bytes]
  simp only [List.cons.injEq, and_true]

end Instruction

theorem Memory.bytesFrom_two (m : Memory) (start : Nat) :
    m.bytesFrom start 2 = [m.byteAt start, m.byteAt (start + 1)] := rfl

open Instruction

/-- The instructions of a program are at every other address from the start of the program on. -/
theorem Memory.bytesFrom_holding {program : List Instruction} (hfits : program.length ≤ 1792)
    {k : Nat} {i : Instruction} (h : program[k]? = some i) :
    (holding (image program)).bytesFrom (0x200 + 2 * k) 2 = i.bytes := by
  obtain ⟨hhigh, hlow⟩ := getElem?_image h
  have hbyte : ∀ a, (holding (image program)).byteAt (0x200 + a) = (image program).getD a 0 := by
    intro a
    rw [byteAt_holding (length_image_le hfits), if_neg (by omega), if_pos (by omega),
      Nat.add_sub_cancel_left]
  rw [bytesFrom_two, Nat.add_assoc, hbyte, hbyte, List.getD_eq_getElem?_getD, hhigh,
    List.getD_eq_getElem?_getD, hlow]
  rfl

namespace Machine

variable {δ κ : Type} {m : Machine δ κ}

theorem fetch_eq_ok_iff_bytes (hpc : m.registers.pc.toNat ≤ 0xFFE) {i : Instruction} :
    m.fetch = .ok i ↔ m.memory.bytesFrom m.registers.pc.toNat 2 = i.bytes := by
  rw [Memory.bytesFrom_two, bytes_eq_iff, fetch_eq_ok_iff]
  exact and_iff_right (Nat.lt_succ_of_le hpc)

/-- Behind a load, fetching finds the instructions of the program, each at its place; and anywhere
in memory it finds an instruction exactly if the bytes of that instruction are there. -/
theorem fetch_undoes_encode :
    (∀ (m : Machine δ κ) (program : List Instruction), program.length ≤ 1792 →
      (m.load (image program)).result = .ok (2 * program.length)
        ∧ ∀ k i, program[k]? = some i → ∀ registers, registers.pc.toNat = 0x200 + 2 * k →
          { (m.load (image program)).state with registers }.fetch = .ok i)
      ∧ ∀ m : Machine δ κ, m.registers.pc.toNat ≤ 0xFFE →
        (∀ i, m.fetch = .ok i ↔ m.memory.bytesFrom m.registers.pc.toNat 2 = i.bytes)
          ∧ ∀ fault, m.fetch = .error fault →
            ∀ i : Instruction, m.memory.bytesFrom m.registers.pc.toNat 2 ≠ i.bytes := by
  refine ⟨fun m program hfits => ?_, fun m hpc => ⟨fun i => fetch_eq_ok_iff_bytes hpc, ?_⟩⟩
  · rw [m.load_of_fits (length_image_le hfits), length_image]
    refine ⟨rfl, fun k i h registers hpc => ?_⟩
    have hk : k < program.length := (List.getElem?_eq_some_iff.1 h).1
    have hin : registers.pc.toNat ≤ 0xFFE := by omega
    refine (fetch_eq_ok_iff_bytes hin).2 ?_
    show (Memory.holding (image program)).bytesFrom registers.pc.toNat 2 = i.bytes
    rw [hpc]
    exact Memory.bytesFrom_holding hfits h
  · intro fault hfault i hbytes
    cases hfault.symm.trans ((fetch_eq_ok_iff_bytes hpc).2 hbytes)

/-- At the odd address between the two instructions, the last byte of the one and the first byte of
the other are a third one. -/
theorem fetch_undoes_encode_between :
    let program := [.jump 0x200, .skipIf (.keyDown 0)]
    let m := ((headless []).load (image program)).state
    { m with registers := .startingAt 0x202 }.fetch = .ok (.skipIf (.keyDown 0))
      ∧ { m with registers := .startingAt 0x201 }.fetch = .ok .clearScreen := by
  intro program m
  obtain ⟨hload, hanywhere⟩ := fetch_undoes_encode (δ := Headless) (κ := WiredKeypad)
  obtain ⟨-, hplace⟩ := hload (headless []) program (by decide)
  obtain ⟨hbetween, -⟩ := hanywhere { m with registers := .startingAt 0x201 } (by decide)
  exact ⟨hplace 1 _ rfl (.startingAt 0x202) rfl, (hbetween .clearScreen).2 (by decide +kernel)⟩

end Machine

end Chip8
