import Chip8.Proofs.Subroutine

/-!
# Registers stored and loaded

`Fx55` stores V0 to Vx in the bytes from I on, `Fx65` loads them from there, and neither moves I. So
registers that were stored are loaded again as they were, all of them or fewer, whatever becomes of
the registers and of the rest of memory in between; and registers that were just loaded are stored
where they came from (`stores_and_loads_undo`). Both hold up to the last byte of memory.
-/

namespace Chip8

variable {δ κ : Type}

/-- The registers after a load of V0 to Vx. -/
def Registers.loading (r : Registers) (memory : Memory) (x : Register) : Registers :=
  { r with v := overwrite r.v 0 (memory.bytesFrom r.index.toNat (x.val + 1)) }

theorem Registers.get_loading (r : Registers) (memory : Memory) (x z : Register) :
    (r.loading memory x).get z =
      if z ≤ x then memory.byteAt (r.index.toNat + z.val) else r.get z :=
  r.get_overwrite memory _ x z

namespace Memory

variable {m n : Memory} {address : UInt16} {r : Registers} {x : Register}

theorem byteAt_of_stored (h : m.write address (r.upTo x) = .ok n) {z : Register} (hz : z ≤ x) :
    n.byteAt (address.toNat + z.val) = r.get z := by
  rw [byteAt_of_write_upTo h, if_pos ⟨Nat.le_add_right _ _, Nat.add_le_add_left hz _⟩,
    Nat.add_sub_cancel_left]
  exact congrArg _ (Fin.ofNat_val_eq_self z)

/-- Storing what is there already changes nothing. -/
theorem eq_of_stored (h : m.write address (r.upTo x) = .ok n)
    (hsame : ∀ z ≤ x, r.get z = m.byteAt (address.toNat + z.val)) : n = m := by
  refine ext_byteAt fun a => ?_
  by_cases ha : address.toNat ≤ a ∧ a ≤ address.toNat + x.val
  · obtain ⟨k, rfl⟩ := Nat.exists_eq_add_of_le ha.1
    have hk : k ≤ x.val := Nat.le_of_add_le_add_left ha.2
    let z : Register := ⟨k, Nat.lt_of_le_of_lt hk x.isLt⟩
    exact (byteAt_of_stored (z := z) h hk).trans (hsame z hk)
  · rw [byteAt_of_write_upTo h, if_neg ha]

end Memory

/-- The machines `m` and `n` have the same I, and the same bytes where V0 to Vx are stored. -/
structure Machine.SharesWindow (x : Register) (m n : Machine δ κ) : Prop where
  index : n.registers.index = m.registers.index
  bytes : ∀ a, m.registers.index.toNat ≤ a → a ≤ m.registers.index.toNat + x.val →
    n.memory.byteAt a = m.memory.byteAt a

namespace Instruction

variable [Display δ] [Keypad κ] (m : Machine δ κ) {x : Register}

section Parts

variable (hin : m.registers.index.toNat + x.val < 4096)

include hin

theorem execute_storeRegisters :
    ∃ memory, m.memory.write m.registers.index (m.registers.upTo x) = .ok memory
      ∧ (storeRegisters x).execute m = .ok { m with memory, registers := m.registers.advance } := by
  have hfree : (storeRegisters x).obstacle? m = none := if_neg (by omega)
  obtain ⟨next, hnext⟩ := exists_execute_eq_ok hfree
  obtain ⟨memory, hwrite, hm⟩ := bind_eq_ok_iff.1 hnext
  exact ⟨memory, hwrite, hnext.trans hm.symm⟩

theorem execute_loadRegisters :
    (loadRegisters x).execute m
      = .ok { m with registers := (m.registers.loading m.memory x).advance } := by
  simp only [execute]
  rw [Memory.read_eq, if_pos (by omega)]
  rfl

/-- Of registers that were stored, a load gives back as many as it loads. -/
theorem load_of_stored {stored changed : Machine δ κ}
    (hstored : (storeRegisters x).execute m = .ok stored) (hshared : stored.SharesWindow x changed)
    {x' : Register} (hx : x' ≤ x) :
    (loadRegisters x').execute changed
        = .ok { changed with registers := (changed.registers.loading changed.memory x').advance }
      ∧ ∀ z ≤ x', (changed.registers.loading changed.memory x').get z = m.registers.get z := by
  obtain ⟨memory, hwrite, hstore⟩ := execute_storeRegisters m hin
  obtain rfl := Except.ok.inj (hstore.symm.trans hstored)
  have hindex : changed.registers.index = m.registers.index := hshared.index
  have hle : x'.val ≤ x.val := hx
  refine ⟨execute_loadRegisters changed (by rw [hindex]; omega), fun z hz => ?_⟩
  have hzx : z.val ≤ x.val := Nat.le_trans hz hle
  rw [Registers.get_loading, if_pos hz, hindex]
  exact (hshared.bytes _ (Nat.le_add_right _ _) (Nat.add_le_add_left hzx _)).trans
    (Memory.byteAt_of_stored hwrite hzx)

/-- Registers that were loaded are stored as the bytes that are there already. -/
theorem store_of_loaded {loaded : Machine δ κ}
    (hloaded : (loadRegisters x).execute m = .ok loaded) :
    (storeRegisters x).execute loaded
      = .ok { m with registers := loaded.registers.advance } := by
  obtain rfl := Except.ok.inj ((execute_loadRegisters m hin).symm.trans hloaded)
  obtain ⟨memory, hwrite, hstore⟩ := execute_storeRegisters
    { m with registers := (m.registers.loading m.memory x).advance } hin
  have hmemory : memory = m.memory :=
    Memory.eq_of_stored hwrite fun z hz => (Registers.get_loading _ _ _ _).trans (if_pos hz)
  rw [hstore, hmemory]

end Parts

/-- A store of V0 to Vx succeeds if there is room for them at I. Whatever is then done to the
machine, as long as I and the stored bytes stay, a load of as many registers or fewer restores them
and leaves the others, I and everything else alone. A load that is followed by a store of the same
registers leaves memory as it was. Both move on by one instruction. -/
theorem stores_and_loads_undo (hin : m.registers.index.toNat + x.val < 4096) :
    (∃ stored, (storeRegisters x).execute m = .ok stored
        ∧ stored.registers = { m.registers with pc := m.registers.pc + 2 }
        ∧ ∀ changed, stored.SharesWindow x changed → ∀ x' ≤ x, ∃ loaded,
          (loadRegisters x').execute changed = .ok loaded
            ∧ (∀ z ≤ x', loaded.registers.get z = m.registers.get z)
            ∧ (∀ z > x', loaded.registers.get z = changed.registers.get z)
            ∧ loaded.registers.index = changed.registers.index
            ∧ loaded.registers.pc = changed.registers.pc + 2
            ∧ loaded = { changed with registers := loaded.registers })
      ∧ (∃ loaded stored, (loadRegisters x).execute m = .ok loaded
        ∧ (storeRegisters x).execute loaded = .ok stored
        ∧ stored.memory = m.memory
        ∧ loaded.registers.pc = m.registers.pc + 2
        ∧ stored.registers.pc = loaded.registers.pc + 2)
      ∧ (m.Executes (storeRegisters x) ∨ m.Executes (loadRegisters x) →
        m.step.state.registers.pc.toNat = m.registers.pc.toNat + 2) := by
  refine ⟨?_, ?_, ?_⟩
  · obtain ⟨memory, -, hstored⟩ := execute_storeRegisters m hin
    refine ⟨_, hstored, rfl, fun changed hshared x' hx => ?_⟩
    obtain ⟨hloaded, hrestored⟩ := load_of_stored m hin hstored hshared hx
    refine ⟨_, hloaded, hrestored, fun z hz => ?_, rfl, rfl, rfl⟩
    exact (Registers.get_loading _ _ _ _).trans (if_neg (Fin.not_le.2 hz))
  · have hloaded := execute_loadRegisters m hin
    exact ⟨_, _, hloaded, store_of_loaded m hin hloaded, rfl, rfl, rfl⟩
  · rintro (h | h)
    · exact h.row.pc
    · exact h.row.pc

/-- The last one of sixteen registers is stored in the last byte of memory. Eight of them are loaded
again, after all of them and the byte in front of the stored ones were changed. -/
theorem stores_and_loads_undo_last :
    let m := { Machine.headless [] with
      registers := { Registers.startingAt 0x200 with
        v := .ofFn fun z => .ofNat (z.val + 1)
        index := 0xFF0 } }
    ∃ stored loaded, (storeRegisters 0xF).execute m = .ok stored
      ∧ (loadRegisters 0x7).execute { stored with
        registers := { stored.registers with v := .replicate 16 0xAA }
        memory := ⟨stored.memory.bytes.setIfInBounds 0xFEF 0xAA⟩ } = .ok loaded
      ∧ loaded.registers.get 7 = 8 ∧ loaded.registers.get 8 = 0xAA := by
  intro m
  obtain ⟨⟨stored, hstored, hregisters, hload⟩, -, -⟩ :=
    stores_and_loads_undo m (x := 0xF) (by decide)
  have hindex : stored.registers.index.toNat = 0xFF0 := by rw [hregisters]; rfl
  have hbytes : ∀ a, stored.registers.index.toNat ≤ a →
      Memory.byteAt ⟨stored.memory.bytes.setIfInBounds 0xFEF 0xAA⟩ a = stored.memory.byteAt a := by
    intro a ha
    have hne : 0xFEF ≠ a := by omega
    simp only [Memory.byteAt, Vector.getElem?_setIfInBounds_ne hne]
  obtain ⟨loaded, hloaded, hrestored, hother, -⟩ :=
    hload { stored with
      registers := { stored.registers with v := .replicate 16 0xAA }
      memory := ⟨stored.memory.bytes.setIfInBounds 0xFEF 0xAA⟩ }
      ⟨rfl, fun a ha _ => hbytes a ha⟩ 0x7 (by decide)
  exact ⟨stored, loaded, hstored, hloaded, (hrestored 7 (by decide)).trans (by decide),
    (hother 8 (by decide)).trans (Vector.getElem_replicate _)⟩

end Instruction

end Chip8
