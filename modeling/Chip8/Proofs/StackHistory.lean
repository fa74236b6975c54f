import Chip8.CallStack
import Mathlib.Data.List.Induction
import Mathlib.Tactic.Common

/-!
# The call stack as a list

Cells beyond the depth of a call stack keep what was in them, and a push writes over it. None of it
shows: a stack does what a list of up to sixteen addresses does (`onList_toList`). An address on the
stack was pushed by a use of the stack onto those below it, and has been on top of them ever since
(`exists_push`), so what was popped or cleared comes back only if it is pushed again
(`refines_list`).
-/

namespace Chip8.CallStack

/-- What can be done to a call stack. -/
inductive Use where
  | push (address : UInt16)
  | pop
  | clear
  deriving DecidableEq, Repr

/-- What a use comes to, with the address that it takes off the stack, and the stack after it. A use
that fails leaves the stack as it is. -/
def use (s : CallStack) : Use → Except Fault (Option UInt16) × CallStack
  | .push address =>
    match s.push address with
    | .ok next => (.ok none, next)
    | .error fault => (.error fault, s)
  | .pop =>
    match s.pop with
    | .ok (address, next) => (.ok (some address), next)
    | .error fault => (.error fault, s)
  | .clear => (.ok none, s.clear)

def after (s : CallStack) (history : List Use) : CallStack :=
  history.foldl (fun s u => (s.use u).2) s

namespace Use

/-- The same for a list of up to sixteen addresses, latest first. -/
def onList (l : List UInt16) : Use → Except Fault (Option UInt16) × List UInt16
  | .push address =>
    if l.length < 16 then (.ok none, address :: l) else (.error .stackOverflow, l)
  | .pop =>
    match l with
    | [] => (.error .stackUnderflow, [])
    | address :: rest => (.ok (some address), rest)
  | .clear => (.ok none, [])

def onListAfter (l : List UInt16) (history : List Use) : List UInt16 :=
  history.foldl (fun l u => (u.onList l).2) l

end Use

section Steps

variable (s : CallStack) (u : Use)

theorem length_toList_le : s.toList.length ≤ 16 := by
  rw [length_toList]
  exact s.depth_le

/-- A use of a stack is one of the list of the addresses on it. -/
theorem onList_toList : u.onList s.toList = ((s.use u).1, (s.use u).2.toList) := by
  cases u with
  | push address =>
    rcases h : s.push address with fault | next
    · obtain ⟨hfull, rfl⟩ := push_eq_error_iff.1 h
      simp [use, h, Use.onList, hfull]
    · have hroom : s.depth < 16 := by
        refine Nat.lt_of_le_of_ne s.depth_le fun hfull => ?_
        rw [push_eq_error_iff.2 ⟨hfull, rfl⟩] at h
        cases h
      simp [use, h, Use.onList, hroom, toList_push h]
  | pop =>
    rcases h : s.pop with fault | ⟨address, next⟩
    · obtain ⟨hempty, rfl⟩ := pop_eq_error_iff.1 h
      have hnil : s.toList = [] := List.eq_nil_of_length_eq_zero (by rw [length_toList, hempty])
      simp [use, h, Use.onList, hnil]
    · simp [use, h, Use.onList, toList_pop h]
  | clear => simp [use, Use.onList]

theorem outcome_use : (s.use u).1 = (u.onList s.toList).1 := by
  rw [onList_toList]

theorem toList_use : (s.use u).2.toList = (u.onList s.toList).2 := by
  rw [onList_toList]

theorem use_of_error {fault : Fault} (h : (s.use u).1 = .error fault) : (s.use u).2 = s := by
  cases u with
  | push address =>
    rcases hpush : s.push address with _ | next <;> simp_all [use]
  | pop =>
    rcases hpop : s.pop with _ | ⟨address, next⟩ <;> simp_all [use]
  | clear => cases h

variable {s u} {address : UInt16} {below : List UInt16} {fault : Fault}

theorem use_push_eq_error_iff :
    (s.use (.push address)).1 = .error fault ↔ s.toList.length = 16 ∧ fault = .stackOverflow := by
  rw [length_toList, ← @push_eq_error_iff s address fault]
  rcases h : s.push address with _ | next <;> simp [use, h]

theorem use_pop_eq_error_iff :
    (s.use .pop).1 = .error fault ↔ s.toList = [] ∧ fault = .stackUnderflow := by
  rw [← List.length_eq_zero_iff, length_toList, ← pop_eq_error_iff]
  rcases h : s.pop with _ | ⟨address, next⟩ <;> simp [use, h]

theorem use_pop_eq_ok_iff :
    (s.use .pop).1 = .ok (some address) ↔ s.toList.head? = some address := by
  rw [outcome_use]
  rcases s.toList with _ | ⟨top, rest⟩ <;> simp [Use.onList]

/-- What a use leaves on the stack was there before, with the same below it, or was just pushed. -/
theorem suffix_use (h : (address :: below) <:+ (s.use u).2.toList) :
    (address :: below) <:+ s.toList ∨ u = .push address ∧ s.toList = below := by
  rw [toList_use] at h
  cases u with
  | push pushed =>
    simp only [Use.onList] at h
    split_ifs at h with hroom
    · rcases List.suffix_cons_iff.1 h with heq | hsuffix
      · obtain ⟨rfl, rfl⟩ := List.cons_eq_cons.1 heq
        exact .inr ⟨rfl, rfl⟩
      · exact .inl hsuffix
    · exact .inl h
  | pop =>
    rcases hl : s.toList with _ | ⟨top, rest⟩
    · rw [hl] at h
      exact .inl h
    · rw [hl] at h
      exact .inl (h.trans (List.suffix_cons top rest))
  | clear => exact absurd (List.suffix_nil.1 h) (by simp)

end Steps

section Histories

variable (s : CallStack) (history : List Use) {address : UInt16} {below : List UInt16}

theorem after_append (later : List Use) :
    s.after (history ++ later) = (s.after history).after later :=
  List.foldl_append

theorem toList_after : (s.after history).toList = Use.onListAfter s.toList history := by
  induction history generalizing s with
  | nil => rfl
  | cons u history ih =>
    show ((s.use u).2.after history).toList = _
    rw [ih, toList_use]
    rfl

/-- What is on a stack was pushed onto what is below it, and has stayed on top of that. -/
theorem exists_push (h : (address :: below) <:+ (empty.after history).toList) :
    ∃ early late, history = early ++ .push address :: late ∧ (empty.after early).toList = below
      ∧ ∀ soFar, soFar <+: late →
        (address :: below) <:+ (empty.after (early ++ .push address :: soFar)).toList := by
  induction history using List.reverseRecOn with
  | nil => exact absurd (List.suffix_nil.1 h) (by simp)
  | append_singleton history u ih =>
    have hlast : empty.after (history ++ [u]) = ((empty.after history).use u).2 :=
      after_append empty history [u]
    rcases suffix_use (hlast ▸ h) with hsuffix | ⟨rfl, hbelow⟩
    · obtain ⟨early, late, rfl, hbelow, hstays⟩ := ih hsuffix
      refine ⟨early, late ++ [u], by simp, hbelow, fun soFar hsoFar => ?_⟩
      rcases List.prefix_concat_iff.1 hsoFar with rfl | hsoFar
      · simpa using h
      · exact hstays soFar hsoFar
    · refine ⟨history, [], rfl, hbelow, fun soFar hsoFar => ?_⟩
      rw [List.prefix_nil.1 hsoFar]
      exact h

theorem mem_after (h : address ∈ (s.after history).toList) :
    address ∈ s.toList ∨ .push address ∈ history := by
  induction history generalizing s with
  | nil => exact .inl h
  | cons u history ih =>
    rcases ih (s.use u).2 h with hmem | hlater
    · obtain ⟨above, below, hsplit⟩ := List.append_of_mem hmem
      rcases suffix_use (s := s) (u := u) ⟨above, hsplit.symm⟩ with hbefore | ⟨rfl, -⟩
      · exact .inl (hbefore.mem List.mem_cons_self)
      · exact .inr List.mem_cons_self
    · exact .inr (List.mem_cons_of_mem u hlater)

end Histories

/-- After any history a stack stands for the list of up to sixteen addresses that the same history
makes of the empty list, and whatever is done next comes to the same for both. A push fails with
sixteen addresses on the stack and only then, a pop with none, and what fails changes nothing. What
a pop takes was pushed onto what is left and has stayed on top of that since. What is not on the
stack, though it may still be in a cell, is not popped unless it is pushed again. -/
theorem refines_list (history : List Use) :
    let s := empty.after history
    let l := Use.onListAfter [] history
    (s.toList = l ∧ l.length ≤ 16 ∧ s.depth = l.length ∧ s.isFull = decide (l.length = 16)
        ∧ ∀ u, (s.use u).1 = (u.onList l).1 ∧ (s.use u).2.toList = (u.onList l).2)
      ∧ (∀ address fault, (s.use (.push address)).1 = .error fault
        ↔ l.length = 16 ∧ fault = .stackOverflow)
      ∧ (∀ fault, (s.use .pop).1 = .error fault ↔ l = [] ∧ fault = .stackUnderflow)
      ∧ (∀ u fault, (s.use u).1 = .error fault → (s.use u).2 = s)
      ∧ (∀ address, (s.use .pop).1 = .ok (some address) →
        ∃ early late, history = early ++ .push address :: late
          ∧ (empty.after early).toList = (s.use .pop).2.toList
          ∧ ∀ soFar, soFar <+: late →
            (address :: (s.use .pop).2.toList)
              <:+ (empty.after (early ++ .push address :: soFar)).toList)
      ∧ ∀ later address, address ∉ l → .push address ∉ later →
        ((s.after later).use .pop).1 ≠ .ok (some address) := by
  intro s l
  have hl : s.toList = l := toList_after empty history
  have hfull : s.isFull = decide (l.length = 16) := by
    rw [← hl, length_toList]
    rfl
  refine ⟨⟨hl, hl ▸ s.length_toList_le, ?_, hfull, fun u => ?_⟩, fun address fault => ?_,
    fun fault => ?_, fun u fault => s.use_of_error u, fun address hpop => ?_,
    fun later address hgone hlater hpop => ?_⟩
  · rw [← hl, length_toList]
  · rw [← hl]
    exact ⟨s.outcome_use u, s.toList_use u⟩
  · rw [← hl]
    exact use_push_eq_error_iff
  · rw [← hl]
    exact use_pop_eq_error_iff
  · obtain ⟨rest, hrest⟩ : ∃ rest, s.toList = address :: rest :=
      List.head?_eq_some_iff.1 (use_pop_eq_ok_iff.1 hpop)
    have hleft : (s.use .pop).2.toList = rest := by
      rw [toList_use, hrest]
      rfl
    rw [hleft]
    exact exists_push history (hrest ▸ List.suffix_refl _)
  · have hmem : address ∈ (s.after later).toList :=
      List.mem_of_mem_head? (use_pop_eq_ok_iff.1 hpop)
    rcases mem_after s later hmem with hbefore | hagain
    · exact hgone (hl ▸ hbefore)
    · exact hlater hagain

/-- The stack is filled, so that a push fails, and cleared. Later 8 is popped, but stays in its
cell. -/
theorem refines_list_stale_cell :
    let filled := (List.range 16).map fun n => Use.push (.ofNat n)
    let history := filled ++ [.clear, .push 7, .push 8, .pop]
    let s := empty.after history
    ((empty.after filled).use (.push 9)).1 = .error .stackOverflow
      ∧ ((empty.after filled).use (.push 9)).2 = empty.after filled
      ∧ 8 ∈ s.cells.toList ∧ ((s.after [.push 5, .pop, .pop]).use .pop).1 ≠ .ok (some 8)
      ∧ ∃ early late, history = early ++ .push 7 :: late ∧ (empty.after early).toList = [] := by
  intro filled history s
  obtain ⟨-, hpush, -, hkept, -⟩ := refines_list filled
  have hfails : ((empty.after filled).use (.push 9)).1 = .error .stackOverflow :=
    (hpush 9 _).2 ⟨by decide +kernel, rfl⟩
  obtain ⟨-, -, -, -, hlatest, hgone⟩ := refines_list history
  obtain ⟨early, late, hhistory, hbelow, -⟩ := hlatest 7 (by decide +kernel)
  exact ⟨hfails, hkept _ _ hfails, by decide +kernel,
    hgone [.push 5, .pop, .pop] 8 (by decide +kernel) (by decide),
    early, late, hhistory, hbelow.trans (by decide +kernel)⟩

end Chip8.CallStack
