import Chip8.Proofs.Presses
import Mathlib.Data.List.Induction

/-!
# The queue of presses

The rising edges of a keypad are numbered in the order in which they come. Whatever is done to a new
keypad, the pending presses are the edges from some number on, up to sixteen of them
(`Pending`, `pending_after`), and that number never goes back (`oldestPending_le`). So presses are
taken in the order of their edges and none is taken twice (`takenIn_append_presses`). An edge that
is pending stays so until it is taken, until all presses are forgotten, or until sixteen newer edges
have come (`leaves_queue`).
-/

namespace Chip8.WiredKeypad

/-- What can be done to a wired keypad, from outside or by the machine. -/
inductive Use where
  | pin (change : PinChange)
  | takePress
  | clearPresses
  | isDown (key : Key)
  deriving DecidableEq, Repr

/-- The level that a use gives to the pin of a key, if it gives it one. -/
def Use.level? (key : Key) : Use → Option Bool
  | .pin (.set changed value) => if changed = key then some value else none
  | .pin .reset => some false
  | _ => none

def use (k : WiredKeypad) : Use → WiredKeypad
  | .pin c => k.change c
  | .takePress => (Keypad.takePress k).2
  | .clearPresses => Keypad.clearPresses k
  | .isDown key => (Keypad.isDown k key).2

def after (k : WiredKeypad) (history : List Use) : WiredKeypad :=
  history.foldl use k

/-- The key of the rising edge that a use makes, if it makes one. -/
def edge? (k : WiredKeypad) : Use → Option Key
  | .pin c => k.risingEdge? c
  | _ => none

/-- The rising edges of a history. The number of an edge is its place among them. -/
def edgesIn (k : WiredKeypad) : List Use → List Key
  | [] => []
  | u :: history => (k.edge? u).toList ++ (k.use u).edgesIn history

/-- The press that a use takes from the queue, if it takes one. -/
def taken? (k : WiredKeypad) : Use → Option Key
  | .takePress => (Keypad.takePress k).1
  | _ => none

/-- The presses that a history takes from the queue, first one first. -/
def takenIn (k : WiredKeypad) : List Use → List Key
  | [] => []
  | u :: history => (k.taken? u).toList ++ (k.use u).takenIn history

/-- Of the edges so far, those from number `oldest` on are pending. -/
structure Pending (k : WiredKeypad) (edges : List Key) (oldest : Nat) : Prop where
  presses : k.presses = edges.drop oldest
  oldest_le : oldest ≤ edges.length
  length_le : edges.length ≤ oldest + pressCapacity

/-- The number of the oldest edge that a use leaves pending, from the one before the use and the
number of edges after it. -/
def Use.oldestAfter (oldest count : Nat) : Use → Nat
  | .pin _ => max oldest (count - pressCapacity)
  | .takePress => min (oldest + 1) count
  | .clearPresses => count
  | .isDown _ => oldest

/-- The number of the oldest edge that is pending after some uses, if there were `count` edges
before them, of which those from number `oldest` on were pending. -/
def oldestFrom (k : WiredKeypad) (count oldest : Nat) : List Use → Nat
  | [] => oldest
  | u :: history =>
    let now := count + (k.edge? u).toList.length
    (k.use u).oldestFrom now (u.oldestAfter oldest now) history

/-- The number of the oldest edge that is pending after a history of a new keypad, or of the next
edge to come if none is. -/
def oldestPending (history : List Use) : Nat :=
  idle.oldestFrom 0 0 history

section Steps

@[simp] theorem edge?_takePress (k : WiredKeypad) : k.edge? .takePress = none := rfl

@[simp] theorem edge?_clearPresses (k : WiredKeypad) : k.edge? .clearPresses = none := rfl

@[simp] theorem edge?_isDown (k : WiredKeypad) (key : Key) : k.edge? (.isDown key) = none := rfl

variable {k : WiredKeypad} {edges : List Key} {oldest : Nat}

theorem edge?_eq_some_iff {u : Use} {key : Key} :
    k.edge? u = some key ↔ u = .pin (.set key true) ∧ k.isDown key = false := by
  constructor
  · intro h
    cases u with
    | pin c =>
      rcases c with ⟨changed, _ | _⟩ | _
      · cases h
      · simp only [edge?, risingEdge?] at h
        split_ifs at h with hdown
        obtain rfl := Option.some.inj h
        exact ⟨rfl, Bool.not_eq_true _ ▸ hdown⟩
      · cases h
    | _ => cases h
  · rintro ⟨rfl, hup⟩
    simp [edge?, risingEdge?, hup]

theorem Pending.length_presses (h : k.Pending edges oldest) :
    k.presses.length = edges.length - oldest := by
  rw [h.presses, List.length_drop]

theorem Pending.length_presses_le (h : k.Pending edges oldest) :
    k.presses.length ≤ pressCapacity := by
  rw [h.length_presses]
  have := h.length_le
  omega

theorem Pending.change (h : k.Pending edges oldest) (c : PinChange) :
    (k.change c).Pending (edges ++ (k.risingEdge? c).toList)
      (max oldest ((edges ++ (k.risingEdge? c).toList).length - pressCapacity)) where
  presses := by
    have hall : k.presses = latest pressCapacity k.presses :=
      (latest_eq_self h.length_presses_le).symm
    rw [presses_change hall, h.presses, ← List.drop_append_of_le_length h.oldest_le, latest,
      List.drop_drop, List.length_drop]
    congr 1
    omega
  oldest_le := by
    have := h.oldest_le
    rw [List.length_append]
    omega
  length_le := by omega

/-- Taking a press takes the oldest edge out of the queue, if there is one. -/
theorem Pending.takePress (h : k.Pending edges oldest) :
    k.takePress.1 = edges[oldest]? ∧ k.takePress.2.presses = edges.drop (oldest + 1) := by
  constructor
  · show k.presses.head? = _
    rw [h.presses, List.head?_drop]
  · show k.presses.tail = _
    rw [h.presses, List.tail_drop]

theorem Pending.use (h : k.Pending edges oldest) (u : Use) :
    (k.use u).Pending (edges ++ (k.edge? u).toList)
      (u.oldestAfter oldest (edges ++ (k.edge? u).toList).length) := by
  have hsame : edges ++ (none : Option Key).toList = edges := List.append_nil edges
  cases u with
  | pin c => exact h.change c
  | takePress =>
    rw [edge?_takePress, hsame]
    refine ⟨h.takePress.2.trans ?_, Nat.min_le_right _ _, ?_⟩
    · rw [List.drop_eq_drop_iff, Use.oldestAfter, Nat.min_assoc, Nat.min_self]
    · have := h.length_le
      simp only [Use.oldestAfter]
      omega
  | clearPresses =>
    rw [edge?_clearPresses, hsame]
    exact ⟨List.drop_length.symm, Nat.le_refl _, Nat.le_add_right _ _⟩
  | isDown key =>
    rw [edge?_isDown, hsame]
    exact h

theorem Pending.after (h : k.Pending edges oldest) (history : List Use) :
    (k.after history).Pending (edges ++ k.edgesIn history)
      (k.oldestFrom edges.length oldest history) := by
  induction history generalizing k edges oldest with
  | nil =>
    rw [edgesIn, List.append_nil]
    exact h
  | cons u history ih =>
    have hrest := ih (h.use u)
    rwa [List.append_assoc, List.length_append] at hrest

/-- Whatever neither makes an edge nor is meant for the queue leaves the queue alone. -/
theorem presses_use_of_no_edge {u : Use} (htake : u ≠ .takePress) (hclear : u ≠ .clearPresses)
    (hedge : k.edge? u = none) : (k.use u).presses = k.presses := by
  cases u with
  | pin c =>
    rcases c with ⟨key, _ | _⟩ | _
    · rfl
    · have hdown : k.pins.get key = true := by
        by_contra hup
        simp [edge?, risingEdge?, isDown, hup] at hedge
      simp [use, change, setPin, hdown]
    · rfl
  | takePress => exact absurd rfl htake
  | clearPresses => exact absurd rfl hclear
  | isDown key => rfl

/-- What a use takes from the queue and what it leaves there was there before, in the same order,
but for the edge that it makes. -/
theorem taken_append_presses (k : WiredKeypad) (u : Use) :
    ((k.taken? u).toList ++ (k.use u).presses).Sublist (k.presses ++ (k.edge? u).toList) := by
  cases u with
  | pin c =>
    rcases c with ⟨key, _ | _⟩ | _
    · exact List.sublist_append_left _ _
    · rcases hup : k.pins.get key
      · have hlatest : (latest pressCapacity (k.presses ++ [key])).Sublist (k.presses ++ [key]) :=
          List.drop_sublist _ _
        simpa [taken?, use, change, setPin, edge?, risingEdge?, isDown, hup] using hlatest
      · simp [taken?, use, change, setPin, hup]
    · exact List.sublist_append_left _ _
  | takePress =>
    show (k.presses.head?.toList ++ k.presses.tail).Sublist (k.presses ++ [])
    rw [List.append_nil]
    cases k.presses <;> exact List.Sublist.refl _
  | clearPresses => exact List.nil_sublist _
  | isDown key => exact List.sublist_append_left _ _

theorem level?_eq_true_iff {u : Use} {key : Key} :
    u.level? key = some true ↔ u = .pin (.set key true) := by
  constructor
  · intro h
    cases u with
    | pin c =>
      cases c with
      | set changed value =>
        simp only [Use.level?, Option.ite_none_right_eq_some, Option.some.injEq] at h
        rw [h.1, h.2]
      | reset => cases h
    | _ => cases h
  · rintro rfl
    exact if_pos rfl

theorem isDown_use (k : WiredKeypad) (u : Use) (key : Key) :
    (k.use u).isDown key = (u.level? key).getD (k.isDown key) := by
  cases u with
  | pin c =>
    cases c with
    | set changed value =>
      have hpins : (k.use (.pin (.set changed value))).isDown key
          = (k.pins.setIfInBounds changed value)[key.val] := rfl
      rw [hpins, Vector.getElem_setIfInBounds, Use.level?]
      by_cases hkey : changed = key
      · rw [if_pos (congrArg Fin.val hkey), if_pos hkey]
        rfl
      · rw [if_neg fun h => hkey (Fin.ext h), if_neg hkey]
        rfl
    | reset => exact Vector.getElem_replicate _
  | _ => rfl

end Steps

section Histories

variable (history later : List Use) (u : Use)

theorem after_concat (k : WiredKeypad) : k.after (history ++ [u]) = (k.after history).use u := by
  simp [after]

theorem edgesIn_append (k : WiredKeypad) :
    k.edgesIn (history ++ later) = k.edgesIn history ++ (k.after history).edgesIn later := by
  induction history generalizing k with
  | nil => rfl
  | cons u history ih =>
    rw [List.cons_append, edgesIn, ih, edgesIn, List.append_assoc]
    rfl

theorem edgesIn_concat (k : WiredKeypad) :
    k.edgesIn (history ++ [u]) = k.edgesIn history ++ ((k.after history).edge? u).toList := by
  rw [edgesIn_append, edgesIn, edgesIn, List.append_nil]

theorem oldestFrom_append (k : WiredKeypad) (count oldest : Nat) :
    k.oldestFrom count oldest (history ++ later)
      = (k.after history).oldestFrom (count + (k.edgesIn history).length)
        (k.oldestFrom count oldest history) later := by
  induction history generalizing k count oldest with
  | nil => rfl
  | cons u history ih =>
    rw [List.cons_append, oldestFrom, ih, edgesIn, List.length_append, ← Nat.add_assoc]
    rfl

/-- After any history the edges from `oldestPending` on are pending. -/
theorem pending_after :
    (idle.after history).Pending (idle.edgesIn history) (oldestPending history) := by
  have hidle : idle.Pending [] 0 := ⟨rfl, Nat.le_refl _, Nat.zero_le _⟩
  exact hidle.after history

theorem oldestPending_concat :
    oldestPending (history ++ [u])
      = u.oldestAfter (oldestPending history) (idle.edgesIn (history ++ [u])).length := by
  rw [oldestPending, oldestFrom_append, edgesIn_concat, List.length_append, Nat.zero_add]
  rfl

/-- The edge that a use makes is the last one that is pending after it. -/
theorem pending_of_edge {key : Key} (h : (idle.after history).edge? u = some key) :
    oldestPending (history ++ [u]) ≤ (idle.edgesIn history).length
      ∧ ((idle.after history).use u).presses.getLast? = some key := by
  have hold := (pending_after history).oldest_le
  have hnow := (pending_after (history ++ [u])).presses
  have hedges : idle.edgesIn (history ++ [u]) = idle.edgesIn history ++ [key] := by
    rw [edgesIn_concat, h]
    rfl
  have hle : oldestPending (history ++ [u]) ≤ (idle.edgesIn history).length := by
    obtain ⟨rfl, -⟩ := edge?_eq_some_iff.1 h
    rw [oldestPending_concat, hedges, List.length_append, List.length_singleton, Use.oldestAfter,
      pressCapacity]
    omega
  refine ⟨hle, ?_⟩
  rw [← after_concat, hnow, hedges, List.drop_append_of_le_length hle, List.getLast?_append]
  rfl

theorem oldestPending_le : oldestPending history ≤ oldestPending (history ++ later) := by
  induction later using List.reverseRecOn with
  | nil => exact Nat.le_of_eq (congrArg oldestPending (List.append_nil history).symm)
  | append_singleton later u ih =>
    refine Nat.le_trans ih ?_
    have hle := (pending_after (history ++ later)).oldest_le
    have hcount : (idle.edgesIn (history ++ later)).length
        ≤ (idle.edgesIn (history ++ later ++ [u])).length := by
      rw [edgesIn_concat, List.length_append]
      omega
    rw [← List.append_assoc, oldestPending_concat]
    cases u <;> simp only [Use.oldestAfter] <;> omega

/-- A press that was taken is behind all that is pending from then on. -/
theorem oldestPending_lt_of_take (h : (idle.after history).presses ≠ []) :
    oldestPending history < oldestPending (history ++ .takePress :: later) := by
  have hpos := List.length_pos_iff.2 h
  rw [(pending_after history).length_presses] at hpos
  have hnext : oldestPending history < oldestPending (history ++ [.takePress]) := by
    rw [oldestPending_concat, edgesIn_concat, edge?_takePress, Use.oldestAfter,
      Option.toList_none, List.append_nil]
    omega
  have hlater := oldestPending_le (history ++ [.takePress]) later
  rw [List.append_assoc] at hlater
  exact Nat.lt_of_lt_of_le hnext hlater

/-- Presses are taken in the order of their edges, none twice and none that is still pending. -/
theorem takenIn_append_presses (k : WiredKeypad) :
    (k.takenIn history ++ (k.after history).presses).Sublist
      (k.presses ++ k.edgesIn history) := by
  induction history generalizing k with
  | nil => simp [takenIn, edgesIn, after]
  | cons u history ih =>
    rw [takenIn, edgesIn, List.append_assoc, ← List.append_assoc k.presses]
    refine ((ih (k.use u)).append_left _).trans ?_
    rw [← List.append_assoc]
    exact (k.taken_append_presses u).append_right _

/-- An edge that is pending leaves the queue as the oldest one when a press is taken, with all the
others when the presses are forgotten, or with the sixteenth edge after it. -/
theorem leaves_queue {n : Nat} (hpending : oldestPending history ≤ n)
    (hold : n < (idle.edgesIn history).length) (hleft : n < oldestPending (history ++ [u])) :
    u = .takePress ∧ n = oldestPending history ∨ u = .clearPresses
      ∨ (∃ key, (idle.after history).edge? u = some key)
        ∧ ((idle.edgesIn (history ++ [u])).drop (n + 1)).length = 16 := by
  have hlength := (pending_after history).length_le
  rw [oldestPending_concat] at hleft
  cases u with
  | pin c =>
    right; right
    rw [List.length_drop]
    rw [edgesIn_concat] at hleft ⊢
    simp only [Use.oldestAfter, pressCapacity, edge?] at hleft hlength ⊢
    rcases hedge : (idle.after history).risingEdge? c with _ | key
    · simp only [hedge, Option.toList_none, List.append_nil] at hleft
      omega
    · simp only [hedge, Option.toList_some, List.length_append, List.length_singleton] at hleft ⊢
      exact ⟨⟨key, rfl⟩, by omega⟩
  | takePress =>
    simp only [Use.oldestAfter] at hleft
    exact .inl ⟨rfl, by omega⟩
  | clearPresses => exact .inr (.inl rfl)
  | isDown key =>
    simp only [Use.oldestAfter] at hleft
    omega

/-- The last use of some kind is the one that is added, or the last one before if the one that is
added is not of that kind. -/
theorem exists_last_concat_iff {v : Use} {other : Use → Prop} :
    (∃ early late, history ++ [u] = early ++ v :: late ∧ ∀ w ∈ late, other w)
      ↔ u = v ∨ other u ∧ ∃ early late, history = early ++ v :: late ∧ ∀ w ∈ late, other w := by
  constructor
  · rintro ⟨early, late, hhistory, hlate⟩
    rcases List.eq_nil_or_concat late with rfl | ⟨late, w, rfl⟩
    · exact .inl (List.singleton_inj.1 (List.append_inj' hhistory rfl).2)
    · rw [List.concat_eq_append, ← List.cons_append, ← List.append_assoc] at hhistory
      obtain ⟨rfl, hu⟩ := List.append_inj' hhistory rfl
      obtain rfl := List.singleton_inj.1 hu
      exact .inr ⟨hlate u (by simp), early, late, rfl, fun w hw => hlate w (by simp [hw])⟩
  · rintro (rfl | ⟨hu, early, late, rfl, hlate⟩)
    · exact ⟨history, [], rfl, fun w hw => absurd hw List.not_mem_nil⟩
    · refine ⟨early, late ++ [u], by simp, fun w hw => ?_⟩
      rcases List.mem_append.1 hw with hw | hw
      · exact hlate w hw
      · rwa [List.mem_singleton.1 hw]

/-- A pin is set if the last use that gave it a level set it. -/
theorem isDown_after_iff (key : Key) :
    (idle.after history).isDown key = true
      ↔ ∃ early late, history = early ++ .pin (.set key true) :: late
        ∧ ∀ u ∈ late, u.level? key = none := by
  induction history using List.reverseRecOn with
  | nil =>
    have hup : idle.isDown key = false := Vector.getElem_replicate _
    simp [after, hup]
  | append_singleton history u ih =>
    rw [after_concat, isDown_use, exists_last_concat_iff, ← level?_eq_true_iff, ← ih]
    rcases u.level? key with _ | value <;> simp

end Histories

/-- Whatever is done to a new keypad, the rising edges are the settings of pins that are not set.
The pending presses are the edges from some number on, sixteen at most: the edge that a use makes is
the last one of them, and a press that is taken is the oldest. So presses come out in the order of
their edges, none twice: all that is pending once a press was taken has a higher number. An edge
leaves the queue when it is taken, when the presses are forgotten, or when the sixteenth edge after
it comes; nothing else changes the queue. A pin is set if the last use that gave it a level set
it. -/
theorem pending_edges (history : List Use) :
    let k := idle.after history
    let edges := idle.edgesIn history
    let oldest := oldestPending history
    (∀ u key, k.edge? u = some key ↔ u = .pin (.set key true) ∧ k.isDown key = false)
      ∧ (∀ u key, k.edge? u = some key →
        oldestPending (history ++ [u]) ≤ edges.length ∧ (k.use u).presses.getLast? = some key)
      ∧ (k.use .clearPresses).presses = []
      ∧ (k.presses = edges.drop oldest ∧ k.presses.length ≤ 16)
      ∧ (k.takePress.1 = edges[oldest]? ∧ k.takePress.2.presses = edges.drop (oldest + 1))
      ∧ (idle.takenIn history ++ k.presses).Sublist edges
      ∧ (∀ later, edges <+: idle.edgesIn (history ++ later)
        ∧ (k.presses ≠ [] → oldest < oldestPending (history ++ .takePress :: later)))
      ∧ (∀ u n, oldest ≤ n → n < edges.length → n < oldestPending (history ++ [u]) →
        u = .takePress ∧ n = oldest ∨ u = .clearPresses
          ∨ (∃ key, k.edge? u = some key)
            ∧ ((idle.edgesIn (history ++ [u])).drop (n + 1)).length = 16)
      ∧ (∀ u, u ≠ .takePress → u ≠ .clearPresses → k.edge? u = none →
        (k.use u).presses = k.presses)
      ∧ ∀ key, k.isDown key = true ↔ ∃ early late, history = early ++ .pin (.set key true) :: late
        ∧ ∀ u ∈ late, u.level? key = none := by
  intro k edges oldest
  have h : k.Pending edges oldest := pending_after history
  refine ⟨fun u key => edge?_eq_some_iff, fun u key => pending_of_edge history u, rfl,
    ⟨h.presses, h.length_presses_le⟩, h.takePress, takenIn_append_presses history idle,
    fun later => ⟨?_, ?_⟩, fun u n => leaves_queue history u, fun u => presses_use_of_no_edge,
    isDown_after_iff history⟩
  · rw [edgesIn_append]
    exact List.prefix_append _ _
  · exact oldestPending_lt_of_take history later

/-- The keys rise in turn, one more often than there is room for: the first edge is lost, the second
is taken or pushed out by the next edge, which falls on a key that was released. -/
theorem pending_edges_eighteen :
    let history := (List.range 17).flatMap fun n =>
      [Use.pin .reset, .pin (.set (.ofNat 16 n) true)]
    let k := idle.after history
    oldestPending history = 1 ∧ k.takePress.1 = some 1
      ∧ 1 < oldestPending (history ++ [.takePress, .pin (.set 5 true)])
      ∧ 1 < oldestPending (history ++ [.pin (.set 5 true)])
      ∧ ((idle.edgesIn (history ++ [.pin (.set 5 true)])).drop 2).length = 16
      ∧ (k.use (.pin (.set 5 true))).presses.getLast? = some 5
      ∧ (k.use (.isDown 5)).presses = k.presses ∧ k.isDown 0 = true := by
  intro history k
  obtain ⟨-, hedge, -, -, ⟨htake, -⟩, -, hlater, hleaves, hkept, hdown⟩ := pending_edges history
  have holdest : oldestPending history = 1 := by decide +kernel
  have hpushed : 1 < oldestPending (history ++ [.pin (.set 5 true)]) := by decide +kernel
  refine ⟨holdest, htake.trans (by decide +kernel), ?_, hpushed, ?_, ?_, ?_, ?_⟩
  · exact holdest ▸ (hlater [.pin (.set 5 true)]).2 (by decide +kernel)
  · have hfirst : oldestPending history ≤ 1 := Nat.le_of_eq holdest
    rcases hleaves _ 1 hfirst (by decide +kernel) hpushed with ⟨htaken, -⟩ | hcleared | ⟨-, h⟩
    · cases htaken
    · cases hcleared
    · exact h
  · exact (hedge _ 5 (by decide +kernel)).2
  · exact hkept _ (by decide) (by decide) rfl
  · exact (hdown 0).2 ⟨history.dropLast, [], by decide +kernel, fun _ hu => absurd hu (by simp)⟩

end Chip8.WiredKeypad
