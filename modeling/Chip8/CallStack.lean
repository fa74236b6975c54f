import Chip8.Fault

/-!
# The call stack

Sixteen cells for return addresses, of which the first `depth` are in use. `CallStack.toList` is the
stack as its users see it, latest address first; cells beyond the depth keep what was in them and
are not part of it.
-/

namespace Chip8

structure CallStack where
  cells : Vector UInt16 16
  depth : Nat
  depth_le : depth ≤ 16
  deriving DecidableEq, Repr

namespace CallStack

def empty : CallStack where
  cells := Vector.replicate 16 0
  depth := 0
  depth_le := by decide

instance : Inhabited CallStack :=
  ⟨empty⟩

/-- The addresses on the stack, latest first. -/
def toList (s : CallStack) : List UInt16 :=
  (s.cells.toList.take s.depth).reverse

def isFull (s : CallStack) : Bool :=
  s.depth == 16

def push (s : CallStack) (address : UInt16) : Except Fault CallStack :=
  if h : s.depth < 16 then
    .ok { cells := s.cells.set s.depth address, depth := s.depth + 1, depth_le := h }
  else .error .stackOverflow

/-- The latest address, and the stack without it. -/
def pop (s : CallStack) : Except Fault (UInt16 × CallStack) :=
  have le := s.depth_le
  if h : 0 < s.depth then
    .ok (s.cells[s.depth - 1], { s with depth := s.depth - 1, depth_le := by omega })
  else .error .stackUnderflow

def clear (s : CallStack) : CallStack :=
  { s with depth := 0, depth_le := by decide }

@[simp] theorem length_toList (s : CallStack) : s.toList.length = s.depth := by
  simp [toList, s.depth_le]

@[simp] theorem toList_empty : empty.toList = [] := rfl

@[simp] theorem toList_clear (s : CallStack) : s.clear.toList = [] := by
  simp [toList, clear]

theorem toList_push {s t : CallStack} {address : UInt16} (h : s.push address = .ok t) :
    t.toList = address :: s.toList := by
  unfold push at h
  split at h
  · cases h
    simp only [toList, Vector.toList_set]
    rw [List.take_add_one, List.take_set_of_le (Nat.le_refl _)]
    simp_all
  · cases h

theorem push_eq_error_iff {s : CallStack} {address : UInt16} {fault : Fault} :
    s.push address = .error fault ↔ s.depth = 16 ∧ fault = .stackOverflow := by
  have := s.depth_le
  unfold push
  split <;> simp [eq_comm]
  all_goals omega

theorem toList_pop {s t : CallStack} {address : UInt16} (h : s.pop = .ok (address, t)) :
    s.toList = address :: t.toList := by
  have := s.depth_le
  unfold pop at h
  split at h
  · rename_i pos
    cases h
    obtain ⟨d, hd⟩ : ∃ d, s.depth = d + 1 := ⟨s.depth - 1, by omega⟩
    simp only [toList, hd, Nat.add_sub_cancel]
    have lt : d < 16 := by omega
    rw [List.take_add_one]
    simp_all
  · cases h

theorem pop_eq_error_iff {s : CallStack} {fault : Fault} :
    s.pop = .error fault ↔ s.depth = 0 ∧ fault = .stackUnderflow := by
  unfold pop
  split <;> simp [eq_comm]
  all_goals omega

end CallStack

end Chip8
