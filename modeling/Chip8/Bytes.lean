/-!
# Runs of bytes

Writing a run of values into a vector. `getElem_overwrite` is its law: the run holds the new values
and everything else is as before; what would stand beyond the end is lost.
-/

namespace Chip8

/-- The vector with `values` in place of what stands from `start` on. -/
def overwrite {α : Type} {size : Nat} (cells : Vector α size) (start : Nat) :
    List α → Vector α size
  | [] => cells
  | value :: values => overwrite (cells.setIfInBounds start value) (start + 1) values

theorem getElem_overwrite {α : Type} {size : Nat} (cells : Vector α size) (start : Nat)
    (values : List α) (i : Nat) (h : i < size) :
    (overwrite cells start values)[i] =
      if start ≤ i then values.getD (i - start) cells[i] else cells[i] := by
  induction values generalizing cells start with
  | nil => simp [overwrite]
  | cons value values ih =>
    rw [overwrite, ih, Vector.getElem_setIfInBounds]
    rcases Nat.lt_trichotomy i start with lt | rfl | gt
    · grind
    · grind
    · obtain ⟨k, rfl⟩ := Nat.exists_eq_add_of_lt gt
      grind

end Chip8
