import Chip8.Memory
import Mathlib.Tactic.Common

/-!
# Bytes of memory

`Memory.byteAt` is the view of memory that every statement about it uses: a byte for each address,
zeros beyond the end. A range that passes its check is read byte by byte (`read_eq`), a word is its
two bytes (`readWord_eq`), and a write changes the bytes of its range and no other
(`byteAt_of_write`).
-/

namespace Chip8

section Attempt

variable {α β : Type} {x : Except Fault α} {b : β} {fault : Fault}

theorem bind_eq_ok_iff {f : α → Except Fault β} :
    x >>= f = .ok b ↔ ∃ a, x = .ok a ∧ f a = .ok b := by
  cases x <;> simp [bind, Except.bind]

/-- Once all that can fail is done, a failure is that of the first part. -/
theorem bind_pure_eq_error_iff {f : α → β} :
    (do let a ← x; return f a) = .error fault ↔ x = .error fault := by
  cases x <;> simp [bind, Except.bind, pure, Except.pure]

end Attempt

namespace Memory

/-- The byte at an address, 0 beyond the end. -/
def byteAt (m : Memory) (a : Nat) : UInt8 :=
  m.bytes[a]?.getD 0

def wordAt (m : Memory) (a : Nat) : Word :=
  .ofBytes (m.byteAt a) (m.byteAt (a + 1))

def bytesFrom (m : Memory) (start length : Nat) : List UInt8 :=
  (List.range length).map fun k => m.byteAt (start + k)

variable (m : Memory) {n : Memory} {address : UInt16} {values : List UInt8} {fault : Fault}

theorem getElem_eq_byteAt {a : Nat} (h : a < 4096) : m.bytes[a] = m.byteAt a := by
  simp [byteAt, h]

theorem byteAt_of_ge {a : Nat} (h : 4096 ≤ a) : m.byteAt a = 0 := by
  simp [byteAt, h]

theorem ext_byteAt {m n : Memory} (h : ∀ a, m.byteAt a = n.byteAt a) : m = n := by
  refine Memory.ext (Vector.ext fun a ha => ?_)
  rw [getElem_eq_byteAt _ ha, getElem_eq_byteAt _ ha, h]

/-- Fresh memory has the glyphs in front and zeros behind them. -/
theorem byteAt_blank (a : Nat) : blank.byteAt a = glyphs.getD a 0 := by
  rcases Nat.lt_or_ge a 4096 with hin | hout
  · rw [← getElem_eq_byteAt _ hin]
    simp only [blank, getElem_overwrite, Nat.zero_le, if_true, Nat.sub_zero,
      Vector.getElem_replicate]
  · have hglyphs : glyphs.length = 0x50 := rfl
    rw [byteAt_of_ge _ hout, List.getD_eq_getElem?_getD, List.getElem?_eq_none (by omega)]
    rfl

@[simp] theorem length_bytesFrom (start length : Nat) :
    (m.bytesFrom start length).length = length := by
  simp [bytesFrom]

theorem getElem?_bytesFrom (start length k : Nat) :
    (m.bytesFrom start length)[k]? = if k < length then some (m.byteAt (start + k)) else none := by
  rw [bytesFrom, List.getElem?_map]
  split_ifs with h
  · rw [List.getElem?_range h]
    rfl
  · rw [List.getElem?_eq_none (by simpa using h)]
    rfl

theorem slice_zero (start : Nat) : m.slice start 0 = [] := by
  refine List.eq_nil_of_length_eq_zero ?_
  simp only [slice, Vector.length_toList]
  omega

theorem slice_eq {start length : Nat} (h : start + length ≤ 4096) :
    m.slice start length = m.bytesFrom start length := by
  refine List.ext_getElem (by rw [length_slice h, length_bytesFrom]) fun k hk hk' => ?_
  rw [length_slice h] at hk
  have hs : (m.slice start length)[k]? = m.bytes[start + k]? := getElem?_slice m hk
  rw [List.getElem?_eq_getElem (by rwa [length_slice h]), getElem?_pos _ _ (by omega)] at hs
  rw [Option.some.inj hs, getElem_eq_byteAt m (by omega)]
  simp [bytesFrom]

theorem read_eq (address : UInt16) (length : Nat) :
    m.read address length =
      if length = 0 ∨ address.toNat + length ≤ 4096 then .ok (m.bytesFrom address.toNat length)
      else .error (.outOfBounds (max address.toNat 4096)) := by
  by_cases h : length = 0 ∨ address.toNat + length ≤ 4096
  · rw [if_pos h, read, requireRange_eq_ok_iff.2 h]
    rcases h with rfl | h
    · exact congrArg Except.ok (m.slice_zero _)
    · rw [slice_eq m h]
      rfl
  · rw [if_neg h, read, requireRange_eq_error_iff.2 ⟨by omega, by omega, rfl⟩]
    rfl

theorem eq_bytesFrom_of_read {m : Memory} {length : Nat} (h : m.read address length = .ok values) :
    values = m.bytesFrom address.toNat length := by
  rw [read_eq] at h
  split_ifs at h
  exact (Except.ok.inj h).symm

theorem readWord_eq (address : UInt16) :
    m.readWord address =
      if address.toNat < 0xFFF then .ok (m.wordAt address.toNat)
      else .error (.outOfBounds (max address.toNat 4096)) := by
  rw [readWord, read_eq]
  by_cases h : address.toNat < 0xFFF
  · rw [if_pos (by omega), if_pos h]
    rfl
  · rw [if_neg (by omega), if_neg h]
    rfl

theorem write_eq_error_iff :
    m.write address values = .error fault ↔
      0 < values.length ∧ 4096 < address.toNat + values.length
        ∧ fault = .outOfBounds (max address.toNat 4096) := by
  rw [← requireRange_eq_error_iff]
  exact bind_pure_eq_error_iff

/-- A write changes the bytes of its range and no other. -/
theorem byteAt_of_write {m : Memory} (h : m.write address values = .ok n) (a : Nat) :
    n.byteAt a =
      if address.toNat ≤ a ∧ a < address.toNat + values.length then
        values.getD (a - address.toNat) 0
      else m.byteAt a := by
  obtain ⟨_, hr, h⟩ := bind_eq_ok_iff.1 h
  cases h
  have hin : values.length = 0 ∨ address.toNat + values.length ≤ 4096 :=
    requireRange_eq_ok_iff.1 hr
  by_cases ha : a < 4096
  · rw [← getElem_eq_byteAt _ ha, ← getElem_eq_byteAt _ ha]
    simp only [getElem_overwrite]
    split_ifs with h1 h2 h2
    · have hlt : a - address.toNat < values.length := by omega
      simp only [List.getD_eq_getElem?_getD, List.getElem?_eq_getElem hlt, Option.getD_some]
    · rw [List.getD_eq_getElem?_getD, List.getElem?_eq_none (by omega)]
      rfl
    · omega
    · rfl
  · rw [if_neg (by omega)]
    simp [byteAt, ha]

end Memory

end Chip8
