import Chip8.Keypad.Wired
import Mathlib.Tactic.Common

/-!
# Presses of wired keys

A press is a rising edge: a pin is set that was not. `WiredKeypad.risingEdges` lists the edges of
any changes of the pins, and the presses pending after these changes are the latest sixteen of the
edges (`presses_changes`).
-/

namespace Chip8

section Latest

variable {α : Type} (count : Nat) (items more : List α)

/-- What is left out before more items come would be left out after they came. -/
theorem latest_latest_append :
    latest count (latest count items ++ more) = latest count (items ++ more) := by
  have hd : items.length - count ≤ items.length := Nat.sub_le _ _
  rw [latest, latest, latest, ← List.drop_append_of_le_length hd, List.drop_drop]
  congr 1
  simp only [List.length_drop, List.length_append]
  omega

variable {count items}

/-- The first item that is kept, if any are to be kept and there are some. -/
theorem latest_eq_cons (hc : 0 < count) (h : items ≠ []) :
    ∃ first rest, latest count items = first :: rest
      ∧ items[items.length - count]? = some first := by
  have hlt : items.length - count < items.length :=
    Nat.sub_lt (List.length_pos_iff.2 h) hc
  exact ⟨items[items.length - count], items.drop (items.length - count + 1),
    List.drop_eq_getElem_cons hlt, List.getElem?_eq_getElem hlt⟩

end Latest

inductive PinChange where
  | set (key : Key) (value : Bool)
  | reset
  deriving DecidableEq, Repr

namespace WiredKeypad

def change (k : WiredKeypad) : PinChange → WiredKeypad
  | .set key value => k.setPin key value
  | .reset => k.resetPins

def changes (k : WiredKeypad) (cs : List PinChange) : WiredKeypad :=
  cs.foldl change k

/-- The key whose pin a change sets, unless it is set already. -/
def risingEdge? (k : WiredKeypad) : PinChange → Option Key
  | .set key true => if k.isDown key then none else some key
  | _ => none

def risingEdges (k : WiredKeypad) : List PinChange → List Key
  | [] => []
  | c :: cs => (k.risingEdge? c).toList ++ (k.change c).risingEdges cs

theorem risingEdges_append (k : WiredKeypad) (cs more : List PinChange) :
    k.risingEdges (cs ++ more) = k.risingEdges cs ++ (k.changes cs).risingEdges more := by
  induction cs generalizing k with
  | nil => rfl
  | cons c cs ih =>
    rw [List.cons_append, risingEdges, ih, risingEdges, List.append_assoc]
    rfl

variable {k : WiredKeypad} {edges : List Key}

theorem risingEdges_eq_nil_of_append {cs more : List PinChange}
    (h : k.risingEdges (cs ++ more) = []) : k.risingEdges cs = [] := by
  rw [risingEdges_append] at h
  exact (List.append_eq_nil_iff.1 h).1

theorem presses_change (h : k.presses = latest pressCapacity edges) (c : PinChange) :
    (k.change c).presses = latest pressCapacity (edges ++ (k.risingEdge? c).toList) := by
  rcases c with ⟨key, value⟩ | _
  · cases value with
    | false => simpa [change, setPin, risingEdge?] using h
    | true =>
      rcases hd : k.pins.get key
      · simp [change, setPin, risingEdge?, isDown, hd, h, latest_latest_append]
      · simpa [change, setPin, risingEdge?, isDown, hd] using h
  · simpa [change, resetPins, risingEdge?] using h

/-- Of the edges before and in some changes, the latest sixteen are pending. -/
theorem presses_changes (h : k.presses = latest pressCapacity edges) (cs : List PinChange) :
    (k.changes cs).presses = latest pressCapacity (edges ++ k.risingEdges cs) := by
  induction cs generalizing k edges with
  | nil => simpa [changes, risingEdges] using h
  | cons c cs ih =>
    rw [risingEdges, ← List.append_assoc]
    exact ih (presses_change h c)

theorem presses_changes_of_nil (h : k.presses = []) (cs : List PinChange) :
    (k.changes cs).presses = latest pressCapacity (k.risingEdges cs) := by
  have hnil : k.presses = latest pressCapacity [] := h
  exact presses_changes hnil cs

end WiredKeypad

end Chip8
